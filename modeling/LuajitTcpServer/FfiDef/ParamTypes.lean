import LuajitTcpServer.FfiDef.Params

/-!
# ParamTypes — parameters whose types are requested

A parameter is `[const] [struct] T {*} [name] [[n]]`.  `paramsAdd` reads it as a word of its text:
the word before the last one, where `const`, stars and line breaks are taken out first.
-/

namespace LuajitTcpServer
namespace FfiDef

open Lua Loops

/-! ## Parameters -/

structure Blanks where
  text : List Char
  blank : ∀ c ∈ text, isBlank c

/-- `[const] [struct] T {*} [name] [[n]]`, with the blanks behind each word and before each star. -/
structure Parameter where
  lead : Blanks
  const : Option Blanks
  struct : Option Blanks
  type : Identifier
  stars : List Blanks
  name : Option (Blanks × Identifier)
  array : Option (Blanks × List Char)
  tail : Blanks
  const_apart : ∀ b ∈ const, b.text ≠ []
  struct_apart : ∀ b ∈ struct, b.text ≠ []
  name_apart : stars = [] → ∀ n ∈ name, n.1.text ≠ []
  array_size : ∀ a ∈ array, ∀ c ∈ a.2, isWordChar c ∨ isBlank c

namespace Parameter

/-- What stands between the type and the name. -/
def pointer (p : Parameter) : List Char :=
  p.stars.flatMap (fun b => b.text ++ ['*']) ++ p.name.elim [] (·.1.text)

/-- The words, each with what stands behind it. -/
def words (p : Parameter) : List (List Char × List Char) :=
  (p.const.map fun b => ("const".toList, b.text)).toList ++
    (p.struct.map fun b => (FfiDef.struct, b.text)).toList ++
    (p.type.text, p.pointer) :: (p.name.map fun n => (n.2.text, [])).toList

def front (p : Parameter) : List Char := p.lead.text ++ p.words.flatMap fun w => w.1 ++ w.2

def text (p : Parameter) : List Char :=
  p.front ++ p.array.elim [] (fun a => a.1.text ++ '[' :: (a.2 ++ [']'])) ++ p.tail.text

end Parameter

/-- A character that no parameter has. -/
structure Separator where
  char : Char
  not_word : isWordChar char = false
  not_blank : isBlank char = false
  not_mark : char ≠ '*' ∧ char ≠ '[' ∧ char ≠ ']'

/-- The text of a list of parameters, perhaps with a separator behind the last one. -/
def paramsText (sep : Separator) (params : List Parameter) (closing : Option Blanks) : List Char :=
  [sep.char].intercalate (params.map Parameter.text ++ (closing.map Blanks.text).toList)

theorem blanks_readable (b : Blanks) : Readable b.text where
  exists_parts := ⟨b.text, [], (List.append_nil _).symm,
    fun c hc => Or.inr (Or.inl (b.blank c hc)), Or.inl rfl⟩

namespace Parameter

theorem pointer_char {p : Parameter} {c : Char} (hc : c ∈ p.pointer) : isBlank c ∨ c = '*' := by
  rcases List.mem_append.1 hc with hc | hc
  · rcases List.mem_flatMap.1 hc with ⟨b, -, hc⟩
    rcases List.mem_append.1 hc with hc | hc
    · exact Or.inl (b.blank c hc)
    · exact Or.inr (List.mem_singleton.1 hc)
  · cases hname : p.name with
    | none =>
        rw [hname] at hc
        cases hc
    | some n =>
        rw [hname] at hc
        exact Or.inl (n.1.blank c hc)

theorem words_char {p : Parameter} {w : List Char × List Char} (hw : w ∈ p.words) :
    w.1 ≠ [] ∧ (∀ c ∈ w.1, isWordChar c) ∧ ∀ c ∈ w.2, isBlank c ∨ c = '*' := by
  rw [words, List.mem_append, List.mem_append, Option.mem_toList, Option.mem_toList, List.mem_cons,
    Option.mem_toList] at hw
  have hconst : "const".toList ≠ [] ∧ ∀ c ∈ "const".toList, isWordChar c := by decide
  have hstruct : FfiDef.struct ≠ [] ∧ ∀ c ∈ FfiDef.struct, isWordChar c := by decide
  rcases hw with (hw | hw) | rfl | hw
  · rcases Option.map_eq_some_iff.1 hw with ⟨b, -, rfl⟩
    exact ⟨hconst.1, hconst.2, fun c hc => Or.inl (b.blank c hc)⟩
  · rcases Option.map_eq_some_iff.1 hw with ⟨b, -, rfl⟩
    exact ⟨hstruct.1, hstruct.2, fun c hc => Or.inl (b.blank c hc)⟩
  · exact ⟨p.type.text_ne, p.type.text_word, fun c hc => pointer_char hc⟩
  · rcases Option.map_eq_some_iff.1 hw with ⟨n, -, rfl⟩
    exact ⟨n.2.text_ne, n.2.text_word, by simp⟩

theorem front_char {p : Parameter} {c : Char} (hc : c ∈ p.front) :
    isWordChar c ∨ isBlank c ∨ c = '*' := by
  rcases List.mem_append.1 hc with hc | hc
  · exact Or.inr (Or.inl (p.lead.blank c hc))
  · rcases List.mem_flatMap.1 hc with ⟨w, hw, hc⟩
    rcases words_char hw with ⟨-, hword, hbehind⟩
    rcases List.mem_append.1 hc with hc | hc
    · exact Or.inl (hword c hc)
    · exact Or.inr (hbehind c hc)

theorem readable (p : Parameter) : Readable p.text := by
  cases harray : p.array with
  | none =>
      refine ⟨p.text, [], (List.append_nil _).symm, fun c hc => ?_, Or.inl rfl⟩
      rw [text, harray, Option.elim_none, List.append_nil] at hc
      rcases List.mem_append.1 hc with hc | hc
      · exact front_char hc
      · exact Or.inr (Or.inl (p.tail.blank c hc))
  | some a =>
      refine ⟨p.front ++ a.1.text, '[' :: (a.2 ++ ']' :: p.tail.text), ?_, fun c hc => ?_,
        Or.inr ⟨_, rfl, fun c hc => ?_⟩⟩
      · rw [text, harray, Option.elim_some]
        simp
      · rcases List.mem_append.1 hc with hc | hc
        · exact front_char hc
        · exact Or.inr (Or.inl (a.1.blank c hc))
      · rcases List.mem_append.1 hc with hc | hc
        · exact (p.array_size a harray c hc).imp_right Or.inl
        · rcases List.mem_cons.1 hc with rfl | hc
          · exact Or.inr (Or.inr (Or.inr rfl))
          · exact Or.inr (Or.inl (p.tail.blank c hc))

end Parameter

theorem not_mem_text (sep : Separator) {txt : List Char} (h : Readable txt) : sep.char ∉ txt :=
  h.not_mem sep.not_word sep.not_blank sep.not_mark

/-! ## When the types are requested -/

/-- The keys are those from before and the types that are not basic. -/
def RequestsTypes (basic_types type_defines : Finset (List Char)) (sep : Separator)
    (params : List Parameter) (closing : Option Blanks) : Prop :=
  ∃ after, paramsAdd basic_types type_defines (some (paramsText sep params closing)) sep.char =
      .ok after ∧
    ∀ key, key ∈ after ↔
      key ∈ type_defines ∨ key ∉ basic_types ∧ ∃ p ∈ params, p.type.text = key

/-- The parameters that have a new type are read as the new types. -/
def ReadsTypes (basic_types type_defines : Finset (List Char)) (sep : Separator)
    (params : List Parameter) (closing : Option Blanks) : Prop :=
  ∀ key ∉ type_defines, (key ∉ basic_types ∧ ∃ p ∈ params, p.type.text = key) ↔
    ¬ typedefEnum <:+: paramsText sep params closing ∧
      ∃ p ∈ params, requestOf basic_types p.text = some key

theorem requestOf_blanks (basic_types : Finset (List Char)) (b : Blanks) :
    requestOf basic_types b.text = none := by
  have hread : readAs b.text = ⟨[], []⟩ := by
    by_cases hstop : staticConst <:+: b.text ∨ '[' ∈ b.text
    · exact readAs_stop hstop
    · have hruns : runs isWordChar (erased b.text) = [] := runs_eq_nil fun c hc =>
        blank_not_word (b.blank c (mem_erased hc).1)
      rw [readAs_words hstop, hruns]
      rfl
  rw [requestOf, hread]
  rfl

/-- A field with an array suffix. -/
def arrayField : Parameter where
  lead := ⟨[], by simp⟩
  const := none
  struct := none
  type := ⟨"foo".toList, by decide, by decide, by decide⟩
  stars := []
  name := some (⟨[' '], by decide⟩, ⟨['x'], by decide, by decide, by decide⟩)
  array := some (⟨[], by simp⟩, ['3'])
  tail := ⟨[], by simp⟩
  const_apart := by simp
  struct_apart := by simp
  name_apart := by simp
  array_size := by simp [isWordChar]

def semicolon : Separator := ⟨';', by decide, by decide, by decide⟩

theorem erased_newline {before after : List Char} :
    erased (before ++ '\n' :: after) = erased (before ++ after) := by
  have hdrop : (before ++ '\n' :: after).filter (· ≠ '\n') = (before ++ after).filter (· ≠ '\n') := by
    rw [List.filter_append, List.filter_append, List.filter_cons_of_neg (by simp)]
  rw [erased, hdrop, erased]

theorem erased_star {before after : List Char} :
    erased (before ++ '*' :: after) = erased before ++ erased after := by
  have hstar : ∀ txt : List Char, ('*' :: txt).filter (· ≠ '*') = txt.filter (· ≠ '*') := fun txt =>
    List.filter_cons_of_neg (by simp)
  have hkeep : ('*' :: after).filter (· ≠ '\n') = '*' :: after.filter (· ≠ '\n') :=
    List.filter_cons_of_pos (by decide)
  rw [erased, List.filter_append, hkeep, replaceAll_append_cons (by decide) (by decide),
    List.filter_append, hstar]
  rfl

theorem erased_nil : erased [] = [] := by
  rw [erased, List.filter_nil, replaceAll_nil, List.filter_nil]

theorem runs_erased_cons {before after : List Char} {c : Char} (hblank : isBlank c)
    (hnewline : c ≠ '\n') :
    runs isWordChar (erased (before ++ c :: after)) =
      runs isWordChar (erased before) ++ runs isWordChar (erased after) := by
  have hstar : c ≠ '*' := by
    rintro rfl
    exact absurd hblank (by decide)
  have hconst : c ∉ "const".toList := by
    intro hmem
    have hword : ∀ d ∈ "const".toList, isBlank d = false := by decide
    rw [hword c hmem] at hblank
    cases hblank
  rw [erased_append_cons hnewline hstar hconst, runs_append_cons (blank_not_word hblank)]

theorem runs_erased_front {gap txt : List Char} (h : ∀ c ∈ gap, isBlank c ∨ c = '*') :
    runs isWordChar (erased (gap ++ txt)) = runs isWordChar (erased txt) := by
  induction gap with
  | nil =>
      rfl
  | cons c gap ih =>
      rw [← ih fun d hd => h d (List.mem_cons_of_mem _ hd), List.cons_append]
      by_cases hnewline : c = '\n'
      · rw [hnewline]
        exact congrArg _ (@erased_newline [] (gap ++ txt))
      · rcases h c List.mem_cons_self with hblank | rfl
        · have hsplit := @runs_erased_cons [] (gap ++ txt) c hblank hnewline
          rwa [erased_nil, runs_nil, List.nil_append] at hsplit
        · have hstar := @erased_star [] (gap ++ txt)
          rw [erased_nil, List.nil_append] at hstar
          exact congrArg _ hstar

theorem runs_erased_back {gap txt : List Char} (h : ∀ c ∈ gap, isBlank c ∨ c = '*') :
    runs isWordChar (erased (txt ++ gap)) = runs isWordChar (erased txt) := by
  induction gap using List.reverseRecOn with
  | nil =>
      rw [List.append_nil]
  | append_singleton gap c ih =>
      rw [← ih fun d hd => h d (List.mem_append_left _ hd), ← List.append_assoc]
      by_cases hnewline : c = '\n'
      · rw [hnewline, erased_newline, List.append_nil]
      · rcases h c (List.mem_append_right _ List.mem_cons_self) with hblank | rfl
        · rw [runs_erased_cons hblank hnewline, erased_nil, runs_nil, List.append_nil]
        · rw [erased_star, erased_nil, List.append_nil]

/-- A blank other than a line break stands between two words. -/
def Apart : List (List Char × List Char) → Prop
  | [] => True
  | [_] => True
  | w :: next :: ws => (∃ c ∈ w.2, isBlank c ∧ c ≠ '\n') ∧ Apart (next :: ws)

/-- A word as the replacements leave it. -/
def withoutConst (word : List Char) : List Char := replaceAll "const".toList [] word

theorem erased_word {word : List Char} (hword : ∀ c ∈ word, isWordChar c) :
    erased word = withoutConst word := by
  have hkeep : ∀ (d : Char) (txt : List Char), isWordChar d = false →
      (∀ c ∈ txt, isWordChar c) → txt.filter (· ≠ d) = txt := by
    intro d txt hd htxt
    refine List.filter_eq_self.2 fun c hc => decide_eq_true ?_
    rintro rfl
    rw [htxt c hc] at hd
    cases hd
  have hsub : ∀ c ∈ withoutConst word, isWordChar c := fun c hc =>
    hword c ((replaceAll_subset (by decide) word c hc).resolve_right (by simp))
  rw [erased, hkeep _ _ (by decide) hword]
  exact hkeep _ _ (by decide) hsub

theorem runs_erased_words {ws : List (List Char × List Char)}
    (hchars : ∀ w ∈ ws, (∀ c ∈ w.1, isWordChar c) ∧ ∀ c ∈ w.2, isBlank c ∨ c = '*')
    (hapart : Apart ws) :
    runs isWordChar (erased (ws.flatMap fun w => w.1 ++ w.2)) =
      (ws.map fun w => withoutConst w.1).filter (· ≠ []) := by
  have hone : ∀ word : List Char, (∀ c ∈ word, isWordChar c) →
      runs isWordChar (erased word) = [withoutConst word].filter (· ≠ []) := by
    intro word hword
    have hsub : ∀ c ∈ withoutConst word, isWordChar c := fun c hc =>
      hword c ((replaceAll_subset (by decide) word c hc).resolve_right (by simp))
    rw [erased_word hword]
    by_cases hne : withoutConst word = []
    · rw [hne]
      rfl
    · rw [runs_word hne hsub, List.filter_cons_of_pos (by simpa using hne)]
      rfl
  induction ws with
  | nil =>
      rw [List.flatMap_nil, erased_nil]
      rfl
  | cons w ws ih =>
      rcases hchars w List.mem_cons_self with ⟨hword, hgap⟩
      cases ws with
      | nil =>
          rw [List.flatMap_cons, List.flatMap_nil, List.append_nil, runs_erased_back hgap,
            hone _ hword]
          rfl
      | cons next ws =>
          have hrest := ih (fun w hw => hchars w (List.mem_cons_of_mem _ hw)) hapart.2
          rcases hapart.1 with ⟨c, hc, hblank, hnewline⟩
          rcases List.append_of_mem hc with ⟨before, after, heq⟩
          have hbefore : ∀ d ∈ before, isBlank d ∨ d = '*' := fun d hd =>
            hgap d (by rw [heq]; exact List.mem_append_left _ hd)
          have hafter : ∀ d ∈ after, isBlank d ∨ d = '*' := fun d hd =>
            hgap d (by rw [heq]; exact List.mem_append_right _ (List.mem_cons_of_mem _ hd))
          rw [List.flatMap_cons, heq, List.append_assoc, List.append_assoc, ← List.append_assoc w.1,
            List.cons_append, runs_erased_cons hblank hnewline, runs_erased_back hbefore,
            runs_erased_front hafter, hrest, hone _ hword, ← List.filter_append]
          rfl

/-- No array suffix, words that stand apart, and no `const` inside the type or the name. -/
structure Parameter.Plain (p : Parameter) : Prop where
  not_static : ¬ staticConst <:+: p.text
  not_array : p.array = none
  apart : Apart p.words
  type_kept : ¬ "const".toList <:+: p.type.text
  type_ne : p.type.text ≠ FfiDef.struct
  name_kept : ∀ n ∈ p.name, ¬ "const".toList <:+: n.2.text

theorem readAs_apart {p : Parameter} (hstatic : ¬ staticConst <:+: p.text)
    (harray : p.array = none) (hapart : Apart p.words) :
    readAs p.text = ends [] ((p.words.map fun w => withoutConst w.1).filter (· ≠ [])) := by
  have htext : p.text = p.lead.text ++ (p.words.flatMap fun w => w.1 ++ w.2) ++ p.tail.text := by
    rw [Parameter.text, harray, Option.elim_none, List.append_nil, Parameter.front]
  have hbracket : '[' ∉ p.text := by
    rw [Parameter.text, harray, Option.elim_none, List.append_nil]
    intro hmem
    rcases List.mem_append.1 hmem with hmem | hmem
    · rcases Parameter.front_char hmem with hc | hc | hc <;> exact absurd hc (by decide)
    · exact absurd (p.tail.blank _ hmem) (by decide)
  rw [readAs_words (not_or.2 ⟨hstatic, hbracket⟩), htext,
    runs_erased_back fun c hc => Or.inl (p.tail.blank c hc),
    runs_erased_front fun c hc => Or.inl (p.lead.blank c hc),
    runs_erased_words (fun w hw => (Parameter.words_char hw).2) hapart]

theorem readAs_plain {p : Parameter} (h : p.Plain) : (readAs p.text).word = p.type.text ∧
    ((readAs p.text).basetype = [] ∨ (readAs p.text).basetype = FfiDef.struct ∨
      (readAs p.text).basetype = p.type.text) := by
  have htype : withoutConst p.type.text = p.type.text := replaceAll_eq_self h.type_kept
  have hne := p.type.text_ne
  have hhead : ((p.words.map fun w => withoutConst w.1).filter (· ≠ [])) =
      (p.struct.map fun _ => FfiDef.struct).toList ++ p.type.text ::
        (p.name.map fun n => n.2.text).toList := by
    have hconst : ((p.const.map fun b => ("const".toList, b.text)).toList.map fun w =>
        withoutConst w.1).filter (· ≠ []) = [] := by
      cases p.const <;> rfl
    have hstruct : ((p.struct.map fun b => (FfiDef.struct, b.text)).toList.map fun w =>
        withoutConst w.1).filter (· ≠ []) = (p.struct.map fun _ => FfiDef.struct).toList := by
      cases p.struct <;> rfl
    have hname : ((p.name.map fun n => (n.2.text, ([] : List Char))).toList.map fun w =>
        withoutConst w.1).filter (· ≠ []) = (p.name.map fun n => n.2.text).toList := by
      cases hname : p.name with
      | none =>
          rfl
      | some n =>
          have hkept : withoutConst n.2.text = n.2.text := replaceAll_eq_self (h.name_kept n hname)
          simp [hkept, n.2.text_ne]
    rw [Parameter.words, List.map_append, List.map_append, List.filter_append, List.filter_append,
      List.map_cons, List.filter_cons_of_pos (by simpa [htype] using hne), hname, htype, hconst,
      hstruct, List.nil_append]
  rw [readAs_apart h.not_static h.not_array h.apart, hhead]
  cases p.struct with
  | none =>
      cases p.name with
      | none =>
          exact ⟨rfl, Or.inl rfl⟩
      | some n =>
          exact ⟨if_pos ⟨hne, h.type_ne⟩, Or.inr (Or.inr rfl)⟩
  | some b =>
      cases p.name with
      | none =>
          exact ⟨rfl, Or.inr (Or.inl rfl)⟩
      | some n =>
          exact ⟨if_pos ⟨hne, h.type_ne⟩, Or.inr (Or.inr rfl)⟩

/-- Plain parameters are read as their types. -/
theorem readsTypes_plain {basic_types : Finset (List Char)} (type_defines : Finset (List Char))
    {sep : Separator} {params : List Parameter} {closing : Option Blanks}
    (hbasic : [] ∉ basic_types ∧ FfiDef.struct ∉ basic_types)
    (henum : ¬ typedefEnum <:+: paramsText sep params closing) (h : ∀ p ∈ params, p.Plain) :
    ReadsTypes basic_types type_defines sep params closing := by
  have hrequest : ∀ p ∈ params, ∀ key,
      requestOf basic_types p.text = some key ↔ key ∉ basic_types ∧ p.type.text = key := by
    intro p hp key
    rcases readAs_plain (h p hp) with ⟨hword, hbase⟩
    have hbasetype : p.type.text ∉ basic_types → (readAs p.text).basetype ∉ basic_types := by
      intro hnew
      rcases hbase with heq | heq | heq
      · exact heq ▸ hbasic.1
      · exact heq ▸ hbasic.2
      · exact heq ▸ hnew
    simp only [requestOf, hword]
    split
    · rename_i hstop
      refine iff_of_false (by simp) ?_
      rintro ⟨hkey, rfl⟩
      rcases hstop with hnil | hold | hold
      · exact p.type.text_ne hnil
      · exact hkey hold
      · exact hbasetype hkey hold
    · rename_i hgo
      rw [not_or, not_or] at hgo
      rw [Option.some.injEq]
      refine ⟨fun heq => ⟨heq ▸ hgo.2.1, heq⟩, And.right⟩
  intro key _
  rw [and_iff_right henum]
  constructor
  · rintro ⟨hkey, p, hp, htype⟩
    exact ⟨p, hp, (hrequest p hp key).2 ⟨hkey, htype⟩⟩
  · rintro ⟨p, hp, hp'⟩
    rcases (hrequest p hp key).1 hp' with ⟨hkey, htype⟩
    exact ⟨hkey, p, hp, htype⟩

end FfiDef
end LuajitTcpServer
