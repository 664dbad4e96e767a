import LuajitTcpServer.FfiDef.CallSearch

/-!
# Prototypes — whether the line of a call is the declarator of the function

The statement around the name of a function: what is left of a body in front, the declarator, and
the body of an inline function up to its first `;`.  The places at which it is cut are those of the
text without comments, so the line is the declarator only when nothing is lost in the body, and a
character behind the `;` or the closing brace in front is left out.
-/

namespace LuajitTcpServer
namespace FfiDef
namespace CallSearch

open Lua Loops TypeSearch

/-! ## Functions in a header -/

/-- A function and where it stands: `before` ends with the `;` in front of it, `lead` with the
closing brace in front of it, and `tail` is the body up to its first `;`. -/
structure FunctionText where
  before : List Char
  before_end : before = [] ∨ before.getLast? = some ';'
  lead : List Char
  lead_end : lead = [] ∨ ∃ body : Plain, lead = body.text ++ ['\x7d']
  lead_plain : '/' ∉ lead
  decl : Plain
  decl_clean : Clean decl.text
  tail : List Char
  tail_begins : tail = [] ∨ ∃ body, tail = '\x7b' :: body
  tail_part : ';' ∉ tail
  after : List Char

namespace FunctionText

variable (d : FunctionText)

def front : List Char := d.lead ++ d.decl.text

def statement : List Char := d.front ++ d.tail

def header : List Char := d.before ++ (d.statement ++ ';' :: d.after)

/-- The line is the declarator without comments and outer blanks, and a `;`. -/
def Exact (line : List Char) : Prop :=
  ∃ declarator, trim line = declarator ++ [';'] ∧
    trim declarator = trim (uncommented d.decl.text)

/-- The characters in front that the places do not count. -/
def missed : Nat := if d.tail = [] then lost d.lead else d.lead.count '\n'

/-- The characters of the declarator that are left out. -/
def dropped : Nat := if d.lead = [] then 1 else 2 - d.missed

/-- The declarator up to the line break in front of a body. -/
def declLine : List Char :=
  if d.tail ≠ [] ∧ d.decl.text.getLast? = some '\n' then d.decl.text.dropLast else d.decl.text

/-- Nothing is lost in the body, no line comment stands in front of it, the places miss at most two
characters in front, and blanks are left out. -/
structure Kept : Prop where
  body : d.tail ≠ [] → lost (d.tail ++ [';']) = 0
  line : Clean d.declLine
  missed_le : d.lead ≠ [] → d.missed ≤ 2
  blank : ∀ c ∈ d.decl.text.take d.dropped, isBlank c

/-! ## The text that is taken -/

theorem decl_not_mem {c : Char} (hc : isMark c) : c ∉ d.decl.text := d.decl.not_mem hc

theorem front_clean : Clean d.front := d.decl_clean.inFront d.lead_plain

/-- The text behind the character that is left out first. -/
def skip : Nat := if d.lead = [] then 1 else d.lead.length - d.missed + 2

theorem missed_le_length : d.missed ≤ d.lead.length := by
  unfold missed
  split
  · exact Nat.sub_le _ _
  · exact List.count_le_length

/-- What is left of the text in front, or what is left out of the declarator. -/
theorem drop_skip (more : List Char) :
    (d.lead ++ more).drop d.skip = d.lead.drop d.skip ++ more.drop d.dropped ∧
      (d.lead.drop d.skip ≠ [] ↔ d.lead ≠ [] ∧ 2 < d.missed) := by
  have hmissed := d.missed_le_length
  unfold skip dropped
  split
  · rename_i hnil
    rw [hnil]
    simp
  · rename_i hne
    have hpos := List.length_pos_iff.2 hne
    have hcount : d.lead.length - d.missed + 2 - d.lead.length = 2 - d.missed := by omega
    rw [List.drop_append, hcount]
    refine ⟨rfl, ?_⟩
    rw [ne_eq, List.drop_eq_nil_iff]
    constructor
    · intro h
      exact ⟨hne, by omega⟩
    · rintro ⟨-, h⟩
      omega

theorem solid_of_exact {txt : List Char} (h : d.Exact (trim (uncommented txt))) :
    solid (uncommented txt) = solid (uncommented d.decl.text) ++ [';'] := by
  rcases h with ⟨declarator, hline, hdecl⟩
  rw [trim_trim] at hline
  have hsolid := congrArg solid hline
  rw [solid_trim, solid_append, ← solid_trim declarator, hdecl, solid_trim] at hsolid
  exact hsolid

/-- A text of the code behind a clean one. -/
theorem mem_uncommented_behind {front rest : List Char} {c : Char} (h : Clean front)
    (hslash : c ≠ '/') (hstar : c ≠ '*') (hbreak : c ≠ '\n') :
    c ∈ uncommented (front ++ c :: rest) := by
  rcases uncommented_append h with ⟨sep, -, heq⟩
  rcases uncommented_cons hslash hbreak rest with ⟨sep', -, hcons⟩
  rw [heq c rest hslash hstar hbreak, hcons]
  simp

theorem drop_clean {txt : List Char} {k : Nat} (h : Clean txt) (hslash : '/' ∉ txt.take k) :
    Clean (txt.drop k) := by
  have hsplit := List.take_append_drop k txt
  rw [← hsplit] at h
  exact h.behind hslash

theorem lead_drop_plain : '/' ∉ d.lead.drop d.skip := fun hmem =>
  d.lead_plain ((List.drop_suffix _ _).subset hmem)

/-- A character of the body in the text is seen in the line. -/
theorem not_exact_body {rest : List Char} (hslash : '/' ∉ d.decl.text.take d.dropped) :
    ¬ d.Exact (trim (uncommented
      ((d.lead.drop d.skip ++ d.decl.text.drop d.dropped) ++ '\x7b' :: rest))) := by
  intro hexact
  have hclean : Clean (d.lead.drop d.skip ++ d.decl.text.drop d.dropped) :=
    (drop_clean d.decl_clean hslash).inFront d.lead_drop_plain
  have hbrace : '\x7b' ∈ solid (uncommented
      ((d.lead.drop d.skip ++ d.decl.text.drop d.dropped) ++ '\x7b' :: rest)) :=
    List.mem_filter.2 ⟨mem_uncommented_behind hclean (by decide) (by decide) (by decide), by decide⟩
  rw [d.solid_of_exact hexact] at hbrace
  rcases List.mem_append.1 hbrace with hmem | hmem
  · have hdecl := (uncommented_sublist _).subset (List.mem_filter.1 hmem).1
    exact d.decl_not_mem (by decide) hdecl
  · exact absurd hmem (by decide)

/-- The declarator is its line, or its line and a line break. -/
theorem declLine_cases :
    d.declLine = d.decl.text ∨ d.decl.text = d.declLine ++ ['\n'] := by
  unfold declLine
  split
  · rename_i h
    exact Or.inr (List.dropLast_append_getLast? '\n' h.2).symm
  · exact Or.inl rfl

theorem uncommented_declLine : uncommented d.declLine = uncommented d.decl.text := by
  rcases d.declLine_cases with heq | heq
  · rw [heq]
  · conv_rhs => rw [heq, uncommented_concat_newline]

theorem declLine_closed : BlocksClosed d.declLine := by
  rcases d.declLine_cases with heq | heq
  · rw [heq]
    exact d.decl_clean.blocks
  · have hblocks := d.decl_clean.blocks
    rw [heq, BlocksClosed, withoutBlocks_concat (by decide)] at hblocks
    exact fun hopen => hblocks (hopen.trans (List.prefix_append _ _).isInfix)

theorem declLine_prefix : d.declLine <+: d.decl.text := by
  rcases d.declLine_cases with heq | heq
  · rw [heq]
  · conv_rhs => rw [heq]
    exact List.prefix_append _ _

theorem take_declLine {k : Nat} {c : Char} (h : c ∈ d.decl.text.take k) :
    c ∈ d.declLine.take k ∨ c = '\n' := by
  rcases d.declLine_cases with heq | heq
  · exact Or.inl (heq ▸ h)
  · rw [heq, List.take_append] at h
    exact (List.mem_append.1 h).imp_right fun hmem => List.mem_singleton.1 (List.mem_of_mem_take hmem)

theorem declLine_take_plain {k : Nat} (h : '/' ∉ d.decl.text.take k) : '/' ∉ d.declLine.take k :=
  fun hmem => h ((d.declLine_prefix.take k).subset hmem)

/-- An open line comment at the end of the line takes the `;` with it. -/
theorem not_exact_open (hslash : '/' ∉ d.decl.text.take d.dropped)
    (hopen : ['/', '/'] <:+: lastLine (withoutBlocks d.declLine)) :
    ¬ d.Exact (trim (uncommented
      ((d.lead.drop d.skip ++ d.declLine.drop d.dropped) ++ [';']))) := by
  intro hexact
  have hbehind : ['/', '/'] <:+: lastLine (withoutBlocks (d.declLine.drop d.dropped)) := by
    have hsplit := List.take_append_drop d.dropped d.declLine
    have htake := d.declLine_take_plain hslash
    rw [← hsplit, withoutBlocks_append htake] at hopen
    rcases lastLine_append (d.declLine.take d.dropped)
      (withoutBlocks (d.declLine.drop d.dropped)) with ⟨part, hpart, heq, -⟩
    rw [heq] at hopen
    exact infix_of_front (fun hmem => htake (hpart.subset hmem)) hopen
  have hwhole : ['/', '/'] <:+:
      lastLine (withoutBlocks (d.lead.drop d.skip ++ d.declLine.drop d.dropped)) := by
    rw [withoutBlocks_append d.lead_drop_plain]
    rcases lastLine_append (d.lead.drop d.skip)
      (withoutBlocks (d.declLine.drop d.dropped)) with ⟨part, -, heq, -⟩
    rw [heq]
    exact hbehind.trans (List.suffix_append _ _).isInfix
  have hnone : ';' ∉ d.lead.drop d.skip ++ d.declLine.drop d.dropped := by
    intro hmem
    rcases List.mem_append.1 hmem with hlead | hdecl
    · rcases d.lead_end with hnil | ⟨body, hbody⟩
      · rw [hnil, List.drop_nil] at hlead
        exact absurd hlead List.not_mem_nil
      · have hin := (List.drop_suffix _ _).subset hlead
        rw [hbody] at hin
        rcases List.mem_append.1 hin with hin | hin
        · exact body.not_mem (by decide) hin
        · exact absurd hin (by decide)
    · exact d.decl_not_mem (by decide) (d.declLine_prefix.subset ((List.drop_suffix _ _).subset hdecl))
  have hsolid := d.solid_of_exact hexact
  have hmem : ';' ∈ solid (uncommented
      ((d.lead.drop d.skip ++ d.declLine.drop d.dropped) ++ [';'])) := by
    rw [hsolid]
    exact List.mem_append_right _ (List.mem_singleton_self _)
  exact not_mem_uncommented_open (by decide) (by decide) hwhole hnone (List.mem_filter.1 hmem).1

theorem uncommented_semicolon : uncommented [';'] = [';'] := by
  decide +kernel

/-- The line that is taken when the body is cut off at its brace. -/
theorem exact_line_iff (hslash : '/' ∉ d.decl.text.take d.dropped) :
    d.Exact (trim (uncommented ((d.lead.drop d.skip ++ d.declLine.drop d.dropped) ++ [';']))) ↔
      Clean d.declLine ∧ (d.lead ≠ [] → d.missed ≤ 2) ∧
        ∀ c ∈ d.decl.text.take d.dropped, isBlank c := by
  have htake := d.declLine_take_plain hslash
  have hsplit := List.take_append_drop d.dropped d.declLine
  constructor
  · intro hexact
    have hline : Clean d.declLine := by
      refine ⟨d.declLine_closed, fun hopen => ?_⟩
      exact d.not_exact_open hslash hopen hexact
    have hclean : Clean (d.lead.drop d.skip ++ d.declLine.drop d.dropped) :=
      (drop_clean hline htake).inFront d.lead_drop_plain
    -- the characters that are no blanks, on both sides
    have hsolid := d.solid_of_exact hexact
    rcases uncommented_append hclean with ⟨sep, hsep, heq⟩
    have hnone : solid sep = [] := solid_eq_nil.2 hsep.blank
    rw [heq ';' [] (by decide) (by decide) (by decide), uncommented_semicolon, solid_append,
      solid_append, hnone, List.append_nil, solid_uncommented_front d.lead_drop_plain,
      ← d.uncommented_declLine, ← hsplit, solid_uncommented_front htake] at hsolid
    rw [hsplit] at hsolid
    have hsame := List.append_cancel_right hsolid
    have hlength := congrArg List.length hsame
    refine ⟨hline, fun hne => ?_, fun c hc => ?_⟩
    · by_contra hmissed
      have hdropped : d.dropped = 0 := by
        rw [dropped, if_neg hne]
        omega
      have hleft := (d.drop_skip []).2.2 ⟨hne, by omega⟩
      -- the closing brace is left in front
      have hbrace : '\x7d' ∈ d.lead.drop d.skip := by
        rcases d.lead_end with hnil | ⟨body, hbody⟩
        · exact absurd hnil hne
        · have hlast : (d.lead.drop d.skip).getLast? = some '\x7d' := by
            rw [List.getLast?_drop, if_neg, hbody, List.getLast?_concat]
            intro hle
            exact hleft (List.drop_eq_nil_of_le hle)
          exact List.mem_of_mem_getLast? hlast
      have hsolidLead : '\x7d' ∈ solid (d.lead.drop d.skip) := List.mem_filter.2 ⟨hbrace, by decide⟩
      have hpos := List.length_pos_of_mem hsolidLead
      rw [hdropped] at hlength
      simp only [List.take_zero, List.drop_zero, List.length_append] at hlength
      have hzero : (solid []).length = 0 := rfl
      omega
    · have hlead : d.lead.drop d.skip = [] ∨ d.dropped = 0 := by
        by_cases hleft : d.lead.drop d.skip = []
        · exact Or.inl hleft
        · have hmissed := (d.drop_skip []).2.1 hleft
          refine Or.inr ?_
          rw [dropped, if_neg hmissed.1]
          omega
      rcases hlead with hnil | hzero
      · rw [hnil] at hlength
        simp only [List.length_append] at hlength
        have hzero : (solid []).length = 0 := rfl
        have hfront : solid (d.declLine.take d.dropped) = [] := List.length_eq_zero_iff.1 (by omega)
        rcases d.take_declLine hc with hmem | rfl
        · exact solid_eq_nil.1 hfront c hmem
        · decide
      · rw [hzero, List.take_zero] at hc
        exact absurd hc List.not_mem_nil
  · rintro ⟨hline, hmissed, hblank⟩
    have hlead : d.lead.drop d.skip = [] := by
      by_contra hleft
      have h := (d.drop_skip []).2.1 hleft
      exact absurd (hmissed h.1) (Nat.not_le.2 h.2)
    have hfront : ∀ c ∈ d.declLine.take d.dropped, isBlank c := fun c hc =>
      hblank c ((d.declLine_prefix.take _).subset hc)
    rcases uncommented_append (drop_clean hline htake) with ⟨sep, hsep, heq⟩
    rcases uncommented_blanks hfront (d.declLine.drop d.dropped) with ⟨front', hfront', hwhole⟩
    rw [hsplit, d.uncommented_declLine] at hwhole
    rw [hlead, List.nil_append, heq ';' [] (by decide) (by decide) (by decide), uncommented_semicolon]
    refine ⟨(uncommented (d.declLine.drop d.dropped) ++ sep).dropWhile isBlank, ?_, ?_⟩
    · rw [trim_trim, trim_append_cons (by decide), List.rdropWhile_nil]
    · have hblanks := @trim_blanks_append
        ((uncommented (d.declLine.drop d.dropped) ++ sep).takeWhile isBlank)
        ((uncommented (d.declLine.drop d.dropped) ++ sep).dropWhile isBlank)
        fun c hc => List.mem_takeWhile_imp hc
      rw [← hblanks, List.takeWhile_append_dropWhile, trim_append_blanks hsep.blank, hwhole,
        trim_blanks_append hfront']

/-! ## The statement without comments -/

def code : List Char := uncommented (d.statement ++ [';'])

theorem tail_cons : ∃ c rest, d.tail ++ [';'] = c :: rest ∧ (c = ';' ∨ c = '\x7b') ∧
    (d.tail ≠ [] → c = '\x7b') := by
  rcases d.tail_begins with hnil | ⟨body, hbody⟩
  · exact ⟨';', [], by rw [hnil]; rfl, Or.inl rfl, fun h => absurd hnil h⟩
  · exact ⟨'\x7b', body ++ [';'], by rw [hbody]; rfl, Or.inr rfl, fun _ => rfl⟩

/-- The front, and what is behind it. -/
theorem code_eq : ∃ sep, IsBreak sep ∧
    d.code = uncommented d.front ++ sep ++ uncommented (d.tail ++ [';']) := by
  rcases uncommented_append d.front_clean with ⟨sep, hsep, heq⟩
  rcases d.tail_cons with ⟨c, rest, htail, hc, -⟩
  refine ⟨sep, hsep, ?_⟩
  rw [code, statement, List.append_assoc, htail]
  rcases hc with rfl | rfl
  · exact heq _ _ (by decide) (by decide) (by decide)
  · exact heq _ _ (by decide) (by decide) (by decide)

/-- The text in front ends with its only brace, with and without comments. -/
theorem uncommented_lead (more : List Char) :
    (∃ sep, IsBreak sep ∧ uncommented (d.lead ++ more) = uncommented d.lead ++ sep ++ uncommented more) ∧
      (d.lead ≠ [] → ∃ body, uncommented d.lead = body ++ ['\x7d'] ∧ '\x7d' ∉ body) := by
  rcases d.lead_end with hnil | ⟨body, hbody⟩
  · rw [hnil]
    exact ⟨⟨[], Or.inl rfl, rfl⟩, fun h => absurd rfl h⟩
  · have hclean : Clean body.text := by
      refine clean_plain fun hmem => d.lead_plain ?_
      rw [hbody]
      exact List.mem_append_left _ hmem
    rcases uncommented_append hclean with ⟨sep, hsep, heq⟩
    rcases uncommented_cons (c := '\x7d') (by decide) (by decide) more with ⟨sep', hsep', hcons⟩
    have hbrace : uncommented ['\x7d'] = ['\x7d'] := by decide +kernel
    have hlead : uncommented d.lead = uncommented body.text ++ sep ++ ['\x7d'] := by
      rw [hbody, heq '\x7d' [] (by decide) (by decide) (by decide), hbrace]
    refine ⟨⟨sep', hsep', ?_⟩, fun _ => ⟨uncommented body.text ++ sep, hlead, ?_⟩⟩
    · rw [hlead, hbody, List.append_assoc, List.singleton_append,
        heq '\x7d' more (by decide) (by decide) (by decide), hcons]
      simp
    · intro hmem
      rcases List.mem_append.1 hmem with hmem | hmem
      · exact body.not_mem (by decide) ((uncommented_sublist _).subset hmem)
      · exact absurd (hsep.blank _ hmem) (by decide)

theorem front_not_mem {c : Char} (hc : isMark c) (hbrace : c ≠ '\x7d') : c ∉ d.front := by
  intro hmem
  rcases List.mem_append.1 hmem with hlead | hdecl
  · rcases d.lead_end with hnil | ⟨body, hbody⟩
    · rw [hnil] at hlead
      exact absurd hlead List.not_mem_nil
    · rw [hbody] at hlead
      rcases List.mem_append.1 hlead with hin | hin
      · exact body.not_mem hc hin
      · exact hbrace (List.mem_singleton.1 hin)
  · exact d.decl_not_mem hc hdecl

theorem statement_semicolon : ';' ∉ d.statement := by
  intro hmem
  rcases List.mem_append.1 hmem with hfront | htail
  · exact d.front_not_mem (by decide) (by decide) hfront
  · exact d.tail_part htail

/-! ## Where the statement is cut -/

/-- The first occurrence of the name in the statement without comments is in the declarator. -/
structure InDeclarator (name : Identifier) (p q : Nat) : Prop where
  found : find d.code (pattern name.text) 1 false = .ok (some (p, q))
  behind_lead : (uncommented d.lead).length < p
  before_tail : q ≤ (uncommented d.front).length

variable {d} {name : Identifier} {p q : Nat}

theorem two_le_length (h : d.InDeclarator name p q) : 2 ≤ d.decl.text.length := by
  rcases occurrence_of_find name.text_word h.found with ⟨c, rest, -, -, hone, hq, -⟩
  rcases (d.uncommented_lead d.decl.text).1 with ⟨sep, hsep, heq⟩
  have hlength := congrArg List.length heq
  have hdecl := (uncommented_sublist d.decl.text).length_le
  have hname := List.length_pos_iff.2 name.text_ne
  have hbreak : sep.length ≤ 1 := by
    rcases hsep with rfl | rfl <;> decide
  have hbehind := h.behind_lead
  have hbefore := h.before_tail
  simp only [List.length_append] at hlength
  rw [front] at hbefore
  omega

theorem dropped_le (h : d.InDeclarator name p q) : d.dropped ≤ d.decl.text.length := by
  have htwo := two_le_length h
  unfold dropped
  split <;> omega

variable (d)

/-- The characters that are cut out behind the front: as many as are lost in the body. -/
def surplus : List Char := (d.tail ++ [';']).take (lost (d.tail ++ [';']))

/-- What is left of the statement when it has been cut at its end. -/
structure IsCut (cut : List Char) : Prop where
  within : cut <+: d.statement ++ [';']
  prototype : d.tail = [] → cut = d.statement ++ [';']
  whole : d.tail ≠ [] → lost (d.tail ++ [';']) = 0 → cut = d.lead ++ d.declLine
  part : d.tail ≠ [] → lost (d.tail ++ [';']) ≠ 0 →
    ∃ rest, cut = d.front ++ '\x7b' :: rest ∧ ∀ c ∈ rest, c ∈ d.surplus

/-- The line that the braces are searched in, for a statement that has been cut. -/
def cutLine (cut : List Char) : List Char :=
  if d.tail = [] then d.code else withoutBreaks cut ++ [';']

def postFix : List Char := if d.tail = [] then [] else [';']

/-- The end of the statement, without a line break at the end. -/
def cutEnd (cut : List Char) : List Char :=
  if cut.getLast? = some '\n' then cut.dropLast else cut

theorem cutEnd_begins (cut : List Char) : cutEnd cut <+: cut := by
  unfold cutEnd
  split
  · exact List.dropLast_prefix _
  · exact List.prefix_refl _

theorem gsub_newline (txt : List Char) : gsub txt newline [] = .ok (withoutBreaks txt) := by
  have hparse : parse newline = ([Single.char '\n']).map .one := by
    decide
  rw [gsub_spells rfl hparse (spells_chars newline) (by decide), newline, replaceAll_char,
    withoutBreaks]

theorem cut_of_front (hne : d.decl.text ≠ []) (htail : d.tail ≠ []) :
    d.IsCut (cutEnd (d.front ++ d.surplus)) := by
  have hwithin : d.front ++ d.surplus <+: d.statement ++ [';'] := by
    rw [statement, List.append_assoc]
    exact (List.prefix_append_right_inj _).2 (List.take_prefix _ _)
  refine ⟨(cutEnd_begins _).trans hwithin, fun hnil => absurd hnil htail, fun _ hlost => ?_,
    fun _ hlost => ?_⟩
  · have hlast : d.front.getLast? = d.decl.text.getLast? := List.getLast?_append_of_ne_nil _ hne
    rw [surplus, hlost, List.take_zero, List.append_nil, cutEnd, hlast, declLine]
    by_cases hbreak : d.decl.text.getLast? = some '\n'
    · rw [if_pos hbreak, if_pos ⟨htail, hbreak⟩, front, List.dropLast_append_of_ne_nil hne]
    · rw [if_neg hbreak, if_neg fun h => hbreak h.2, front]
  · rcases d.tail_cons with ⟨c, rest, hcons, -, hbrace⟩
    have hsurplus : d.surplus = '\x7b' :: rest.take (lost (d.tail ++ [';']) - 1) := by
      rcases Nat.exists_eq_succ_of_ne_zero hlost with ⟨k, hk⟩
      rw [surplus, hk, hcons, hbrace htail]
      rfl
    rw [cutEnd]
    split
    · rename_i hbreak
      -- the brace is no line break
      have hrest : rest.take (lost (d.tail ++ [';']) - 1) ≠ [] := by
        intro hnil
        rw [hsurplus, hnil, List.getLast?_concat] at hbreak
        exact absurd hbreak (by decide)
      refine ⟨(rest.take (lost (d.tail ++ [';']) - 1)).dropLast, ?_, fun c hc => ?_⟩
      · rw [hsurplus, List.dropLast_append_of_ne_nil (List.cons_ne_nil _ _),
          List.dropLast_cons_of_ne_nil hrest]
      · rw [hsurplus]
        exact List.mem_cons_of_mem _ (List.mem_of_mem_dropLast hc)
    · refine ⟨rest.take (lost (d.tail ++ [';']) - 1), by rw [hsurplus], fun c hc => ?_⟩
      rw [hsurplus]
      exact List.mem_cons_of_mem _ hc

theorem sub_cut {cut : List Char} (hcut : cut <+: d.statement ++ [';']) (k : Nat) :
    sub d.header (d.before.length + k + 1 : Nat) (d.before.length + cut.length : Nat) =
      cut.drop k := by
  have hheader : d.header = d.before ++ ((d.statement ++ [';']) ++ d.after) := by
    rw [header]
    simp
  rw [hheader, sub_between _ _ _ hcut.length_le, ← List.prefix_iff_eq_take.1 hcut]

theorem find_first {front rest : List Char} {c : Char} (hplain : isSpecial c = false)
    (hfront : c ∉ front) :
    find (front ++ c :: rest) [c] 1 false = .ok (some (front.length + 1, front.length + 1)) :=
  find_char_at hplain (by omega) hfront

theorem find_absent {txt : List Char} {c : Char} (hplain : isSpecial c = false) (h : c ∉ txt) :
    find txt [c] 1 false = .ok none := by
  rw [find_plain (by simp [hplain]), Nat.sub_self, Nat.zero_min, List.drop_zero,
    plainFrom_char_none h]
  rfl

theorem code_brace : (d.tail = [] → '\x7b' ∉ d.code) ∧
    (d.tail ≠ [] → ∃ k, find d.code openBrace 1 false = .ok (some (k, k)) ∧
      (uncommented d.front).length < k ∧ k ≤ d.code.length ∧
      k + (uncommented (d.tail ++ [';'])).length = d.code.length + 1) := by
  have hfront : '\x7b' ∉ uncommented d.front := fun hmem =>
    d.front_not_mem (by decide) (by decide) ((uncommented_sublist _).subset hmem)
  constructor
  · intro hnil hmem
    have hstatement := (uncommented_sublist _).subset hmem
    rw [statement, hnil, List.append_nil] at hstatement
    rcases List.mem_append.1 hstatement with hmem | hmem
    · exact d.front_not_mem (by decide) (by decide) hmem
    · exact absurd hmem (by decide)
  · intro htail
    rcases d.code_eq with ⟨sep, hsep, hcode⟩
    rcases d.tail_cons with ⟨c, rest, hcons, -, hbrace⟩
    rcases @uncommented_cons '\x7b' (by decide) (by decide) rest with ⟨sep', -, htext⟩
    have hnone : '\x7b' ∉ uncommented d.front ++ sep := by
      intro hmem
      rcases List.mem_append.1 hmem with hmem | hmem
      · exact hfront hmem
      · exact absurd (hsep.blank _ hmem) (by decide)
    rw [hcons, hbrace htail] at hcode ⊢
    refine ⟨(uncommented d.front ++ sep).length + 1, ?_, ?_, ?_, ?_⟩
    · rw [hcode, htext]
      exact find_first (by decide) hnone
    · rw [List.length_append]
      omega
    · rw [hcode, htext, @List.length_append _ (uncommented d.front ++ sep), List.length_cons]
      omega
    · rw [hcode, @List.length_append _ (uncommented d.front ++ sep)]
      omega

/-- Where the body is cut off. -/
theorem cutBody_statement (h : d.InDeclarator name p q) :
    ∃ cut, d.IsCut cut ∧
      cutBody d.header ⟨d.code, d.before.length, d.before.length + d.statement.length + 1, []⟩ q =
        .ok ⟨d.cutLine cut, d.before.length, d.before.length + cut.length, d.postFix⟩ := by
  have hwhole : d.before.length + d.statement.length + 1 =
      d.before.length + (d.statement ++ [';']).length := by
    rw [List.length_append, List.length_singleton]
    omega
  by_cases htail : d.tail = []
  · have hnone : find d.code openBrace 1 false = .ok none :=
      find_absent (by decide) (d.code_brace.1 htail)
    refine ⟨d.statement ++ [';'], ⟨List.prefix_refl _, fun _ => rfl, fun hne => absurd htail hne,
      fun hne => absurd htail hne⟩, ?_⟩
    rw [cutBody, hnone, cutLine, if_pos htail, postFix, if_pos htail, hwhole]
    rfl
  · rcases d.code_brace.2 htail with ⟨k, hfind, hk, hle, hlength⟩
    have hdecl : d.decl.text ≠ [] := List.ne_nil_of_length_pos (by have := two_le_length h; omega)
    have hlost := lost_add_length (d.tail ++ [';'])
    have hsurplus : d.surplus.length = lost (d.tail ++ [';']) := by
      rw [surplus, List.length_take]
      omega
    have hend : d.before.length + d.statement.length + 1 - (d.code.length - k + 1) =
        d.before.length + (d.front ++ d.surplus).length := by
      rw [List.length_append, hsurplus, statement, List.length_append]
      rw [List.length_append, List.length_singleton] at hlost
      omega
    have hprefix : d.front ++ d.surplus <+: d.statement ++ [';'] := by
      rw [statement, List.append_assoc]
      exact (List.prefix_append_right_inj _).2 (List.take_prefix _ _)
    have htext := d.sub_cut hprefix 0
    have hcut := (d.cut_of_front hdecl htail)
    have hbreak : beforeNewline (d.front ++ d.surplus) (d.before.length + (d.front ++ d.surplus).length) =
        d.before.length + (cutEnd (d.front ++ d.surplus)).length := by
      have hpos : 1 ≤ (d.front ++ d.surplus).length := by
        rw [front, List.length_append, List.length_append]
        have := two_le_length h
        omega
      rw [beforeNewline, cutEnd]
      split
      · rw [List.length_dropLast]
        omega
      · rfl
    have hkept := d.sub_cut hcut.within 0
    refine ⟨_, hcut, ?_⟩
    rw [Nat.add_zero, List.drop_zero] at htext hkept
    have hbehind : k > q := Nat.lt_of_le_of_lt h.before_tail hk
    simp only [cutBody, hfind, bind, Except.bind, if_pos hbehind, hend, htext, hbreak, hkept,
      gsub_newline, cutLine, postFix, if_neg htail, TypeSearch.semicolon]
    rfl

theorem length_withoutBreaks (txt : List Char) :
    (withoutBreaks txt).length + txt.count '\n' = txt.length := by
  induction txt with
  | nil =>
      rfl
  | cons c txt ih =>
      rw [withoutBreaks] at ih ⊢
      by_cases hc : c = '\n'
      · rw [hc, List.filter_cons_of_neg (by decide), List.count_cons_self, List.length_cons]
        omega
      · rw [List.filter_cons_of_pos (by simpa using hc), List.count_cons_of_ne hc, List.length_cons,
          List.length_cons]
        omega

theorem IsCut.of_lead {cut : List Char} (h : d.IsCut cut) (htail : d.tail ≠ []) :
    ∃ more, cut = d.lead ++ more := by
  by_cases hlost : lost (d.tail ++ [';']) = 0
  · exact ⟨_, h.whole htail hlost⟩
  · rcases h.part htail hlost with ⟨rest, hcut, -⟩
    exact ⟨d.decl.text ++ '\x7b' :: rest, by rw [hcut, front, List.append_assoc]⟩

/-- The closing brace in front, without comments and without line breaks. -/
theorem lead_brace (hlead : d.lead ≠ []) :
    ∃ body, '\x7d' ∉ body ∧ body.length + 1 = d.lead.length - d.missed ∧
      body.length + 1 ≤ (uncommented d.lead).length ∧
      ∀ cut, d.IsCut cut → ∃ rest, d.cutLine cut = body ++ '\x7d' :: rest := by
  have hlost := lost_add_length d.lead
  by_cases htail : d.tail = []
  · rcases (d.uncommented_lead (d.decl.text ++ [';'])).2 hlead with ⟨body, hbody, hnone⟩
    rcases (d.uncommented_lead (d.decl.text ++ [';'])).1 with ⟨sep, -, hcode⟩
    have hlength := congrArg List.length hbody
    rw [List.length_append, List.length_singleton] at hlength
    refine ⟨body, hnone, ?_, by omega, fun cut _ => ⟨sep ++ uncommented (d.decl.text ++ [';']), ?_⟩⟩
    · rw [missed, if_pos htail]
      omega
    · rw [cutLine, if_pos htail, code, statement, htail, List.append_nil, front, List.append_assoc,
        hcode, hbody]
      simp
  · rcases d.lead_end with hnil | ⟨body, hbody⟩
    · exact absurd hnil hlead
    have hnone : '\x7d' ∉ withoutBreaks body.text := fun hmem =>
      body.not_mem (by decide) (List.mem_filter.1 hmem).1
    have hbreaks : withoutBreaks d.lead = withoutBreaks body.text ++ ['\x7d'] := by
      rw [hbody, withoutBreaks, List.filter_append]
      rfl
    have hlength := congrArg List.length hbreaks
    have hcount := length_withoutBreaks d.lead
    rw [List.length_append, List.length_singleton] at hlength
    refine ⟨withoutBreaks body.text, hnone, ?_, ?_, fun cut hcut => ?_⟩
    · rw [missed, if_neg htail]
      omega
    · rcases uncommented_front d.lead_plain [] with ⟨front', heq, hsame⟩
      rw [List.append_nil] at heq
      have hle := List.length_filter_le (· ≠ '\n') front'
      rw [← withoutBreaks, hsame] at hle
      rw [heq, List.length_append]
      omega
    · rcases hcut.of_lead d htail with ⟨more, hmore⟩
      refine ⟨withoutBreaks more ++ [';'], ?_⟩
      rw [cutLine, if_neg htail, hmore, withoutBreaks, List.filter_append, ← withoutBreaks, hbreaks,
        ← withoutBreaks]
      simp

/-- No closing brace stands in front of the name when there is no text in front. -/
theorem no_brace (hlead : d.lead = []) (hsurplus : '\x7d' ∉ d.surplus) {cut : List Char}
    (hcut : d.IsCut cut) : '\x7d' ∉ d.cutLine cut := by
  intro hmem
  have hdecl : '\x7d' ∉ d.decl.text := d.decl_not_mem (by decide)
  by_cases htail : d.tail = []
  · rw [cutLine, if_pos htail, code, statement, htail, List.append_nil, front, hlead,
      List.nil_append] at hmem
    rcases List.mem_append.1 ((uncommented_sublist _).subset hmem) with hmem | hmem
    · exact hdecl hmem
    · exact absurd hmem (by decide)
  · rw [cutLine, if_neg htail] at hmem
    rcases List.mem_append.1 hmem with hmem | hmem
    · have hin := (List.mem_filter.1 hmem).1
      by_cases hlost : lost (d.tail ++ [';']) = 0
      · rw [hcut.whole htail hlost, hlead, List.nil_append] at hin
        exact hdecl (d.declLine_prefix.subset hin)
      · rcases hcut.part htail hlost with ⟨rest, heq, hrest⟩
        rw [heq, front, hlead, List.nil_append] at hin
        rcases List.mem_append.1 hin with hin | hin
        · exact hdecl hin
        · rcases List.mem_cons.1 hin with hin | hin
          · exact absurd hin (by decide)
          · exact hsurplus (hrest _ hin)
    · exact absurd hmem (by decide)

/-- Where the text in front is cut off. -/
theorem cutFront_statement (h : d.InDeclarator name p q) {cut : List Char} (hcut : d.IsCut cut)
    (hsurplus : d.lead = [] → '\x7d' ∉ d.surplus) :
    cutFront d.header ⟨d.cutLine cut, d.before.length, d.before.length + cut.length, d.postFix⟩ p =
      .ok ⟨if d.lead = [] then d.cutLine cut else cut.drop (d.skip - 1) ++ d.postFix,
        d.before.length + d.skip - 1, d.before.length + cut.length, d.postFix⟩ := by
  by_cases hlead : d.lead = []
  · have hnone : find (d.cutLine cut) closeBrace 1 false = .ok none :=
      find_absent (by decide) (d.no_brace hlead (hsurplus hlead) hcut)
    rw [cutFront, hnone, if_pos hlead, skip, if_pos hlead]
    rfl
  · rcases d.lead_brace hlead with ⟨body, hnone, hlength, hle, hline⟩
    rcases hline cut hcut with ⟨rest, heq⟩
    have hfind : find (d.cutLine cut) closeBrace 1 false =
        .ok (some (body.length + 1, body.length + 1)) := by
      rw [heq]
      exact find_first (by decide) hnone
    have hbehind := h.behind_lead
    have hlt : body.length + 1 < p := by omega
    have hskip : d.skip = body.length + 1 + 2 := by
      rw [skip, if_neg hlead, hlength]
    have hstart : d.before.length + d.skip - 1 = d.before.length + (body.length + 1) + 1 := by omega
    have htext := d.sub_cut hcut.within (d.skip - 1)
    have hplace : d.before.length + (d.skip - 1) + 1 =
        d.before.length + (body.length + 1) + 1 + 1 := by omega
    rw [hplace] at htext
    simp only [cutFront, hfind, bind, Except.bind, if_pos hlt, htext, if_neg hlead, hstart]
    rfl

theorem skip_pos : 1 ≤ d.skip := by
  unfold skip
  split <;> omega

/-- The line of a statement that has been cut. -/
theorem callText_statement {cut : List Char} (hcut : d.IsCut cut) (line : List Char) :
    callText d.header ⟨line, d.before.length + d.skip - 1, d.before.length + cut.length, d.postFix⟩ =
      .ok (trim (uncommented (cut.drop d.skip ++ d.postFix))) := by
  have hskip := d.skip_pos
  have htext := d.sub_cut hcut.within d.skip
  have hplace : d.before.length + d.skip - 1 + 1 + 1 = d.before.length + d.skip + 1 := by omega
  simp only [callText, hplace, htext, removeAllLineComments_ok, uncommented_dropNewlines,
    replaceLine_eq, bind, Except.bind]

/-- The line of a statement that has been cut is the declarator exactly when it is kept. -/
theorem exact_cut_iff (h : d.InDeclarator name p q) {cut : List Char} (hcut : d.IsCut cut)
    (hslash : '/' ∉ d.decl.text.take d.dropped) :
    d.Exact (trim (uncommented (cut.drop d.skip ++ d.postFix))) ↔ d.Kept := by
  have hkept : d.Kept ↔ (d.tail ≠ [] → lost (d.tail ++ [';']) = 0) ∧ Clean d.declLine ∧
      (d.lead ≠ [] → d.missed ≤ 2) ∧ ∀ c ∈ d.decl.text.take d.dropped, isBlank c :=
    ⟨fun hk => ⟨hk.body, hk.line, hk.missed_le, hk.blank⟩,
      fun hk => ⟨hk.1, hk.2.1, hk.2.2.1, hk.2.2.2⟩⟩
  have hdropped := dropped_le h
  rw [hkept]
  by_cases htail : d.tail = []
  · have hline : d.declLine = d.decl.text := by
      rw [declLine, if_neg fun hne => hne.1 htail]
    have htext : cut.drop d.skip ++ d.postFix =
        (d.lead.drop d.skip ++ d.declLine.drop d.dropped) ++ [';'] := by
      rw [hcut.prototype htail, postFix, if_pos htail, statement, htail, front, hline]
      simp only [List.append_nil, List.append_assoc]
      rw [(d.drop_skip _).1, List.drop_append_of_le_length hdropped]
    rw [htext, d.exact_line_iff hslash, and_iff_right fun hne => absurd htail hne]
  · by_cases hlost : lost (d.tail ++ [';']) = 0
    · have htext : cut.drop d.skip ++ d.postFix =
          (d.lead.drop d.skip ++ d.declLine.drop d.dropped) ++ [';'] := by
        rw [hcut.whole htail hlost, postFix, if_neg htail, (d.drop_skip _).1]
      rw [htext, d.exact_line_iff hslash, and_iff_right fun _ => hlost]
    · -- the brace of the body is in the line
      rcases hcut.part htail hlost with ⟨rest, heq, -⟩
      have htext : cut.drop d.skip ++ d.postFix =
          (d.lead.drop d.skip ++ d.decl.text.drop d.dropped) ++ '\x7b' :: (rest ++ [';']) := by
        rw [heq, postFix, if_neg htail, front, List.append_assoc, (d.drop_skip _).1,
          List.drop_append_of_le_length hdropped]
        simp
      rw [htext]
      exact iff_of_false (d.not_exact_body hslash) fun hk => hlost (hk.1 htail)

/-- `pragma pack` is not in the statement, also when comments or line breaks are taken out of it. -/
structure Unpacked : Prop where
  code : ¬ pragmaWords <:+: d.code
  text : ¬ pragmaWords <:+: d.statement
  joined : ¬ pragmaWords <:+: withoutBreaks d.statement

/-- The occurrence lies in the statement. -/
structure Around (startpos endpos : Nat) : Prop where
  start_ge : d.before.length ≤ startpos
  start_le : startpos ≤ d.before.length + d.statement.length
  end_gt : d.before.length < endpos
  end_le : endpos ≤ d.before.length + d.statement.length + 1

end FunctionText

/-! ## From the search to the line -/

/-- The statement around an occurrence has the name in comments only. -/
def InComment (header name : List Char) (startpos endpos : Nat) : Prop :=
  ∃ lineStart lineEnd,
    stringBetweenPosition header startpos endpos TypeSearch.semicolon TypeSearch.semicolon =
        .ok (lineStart, lineEnd) ∧
      find (uncommented (sub header (lineStart + 1 : Nat) lineEnd)) (pattern name) 1 false = .ok none

/-- The first occurrence from a place on whose statement has the name outside comments. -/
inductive FirstFrom (header name : List Char) : Nat → Nat → Nat → Prop where
  | here {findpos s e : Nat} :
      find header (pattern name) findpos false = .ok (some (s, e)) → FirstFrom header name findpos s e
  | skip {findpos s' e' s e : Nat} :
      find header (pattern name) findpos false = .ok (some (s', e')) → InComment header name s' e' →
        FirstFrom header name (e' + 1) s e → FirstFrom header name findpos s e

/-- A call whose occurrence at a place is taken gives a line. -/
structure Appends (header : List Char) (name : Identifier) (startpos : Nat) (text : List Char) :
    Prop where
  takes : ∃ last found, (searchLoop header name).run ⟨1, [], none⟩ = .ok last ∧
    last.taken = some (startpos, found)
  adds : ∃ t t' left, createMissingDefinitions header t [name] = .ok (t', left) ∧
    t'.functionLines = t.functionLines ++ [text]

section Run

variable {header findcall postFix text : List Char} {name : Identifier}
  {findpos startpos endpos s e : Nat} {found : Found}

theorem callRound_comment (h : InComment header findcall startpos endpos) :
    callRound header findcall postFix startpos endpos = .ok (.goOn (endpos + 1) postFix) := by
  rcases h with ⟨lineStart, lineEnd, hplaces, hnone⟩
  simp only [callRound, hplaces, removeAllLineComments_ok, hnone, bind, Except.bind]
  rfl

theorem run_of_firstFrom (h : FirstFrom header name.text findpos s e) :
    ∃ findpos', find header (pattern name.text) findpos' false = .ok (some (s, e)) ∧
      (searchLoop header name).run ⟨findpos, [], none⟩ =
        (searchLoop header name).run ⟨findpos', [], none⟩ := by
  induction h with
  | here hfind =>
      exact ⟨_, hfind, rfl⟩
  | skip hfind hcomment _ ih =>
      rcases ih with ⟨findpos', hfind', hrun⟩
      refine ⟨findpos', hfind', ?_⟩
      rw [← hrun]
      refine Loop.run_again _ ?_
      simp only [searchLoop, searchCallRound, hfind, callRound_comment hcomment, bind, Except.bind]
      rfl

/-- What is taken is not in front of the place where the search begins. -/
theorem le_taken {last : Search}
    (h : (searchLoop header name).run ⟨findpos, postFix, none⟩ = .ok last)
    (htaken : last.taken = some (startpos, found)) : findpos ≤ startpos := by
  have hkeeps := Loop.run_keeps (searchLoop header name)
    (motive := fun x => findpos ≤ x.findpos ∧ ∀ s found, x.taken = some (s, found) → findpos ≤ s)
    ⟨Nat.le_refl _, fun s found hnone => absurd hnone (by simp)⟩ h (by
      rintro x x' ⟨hle, hx⟩ hround
      simp only [searchLoop, searchCallRound, bind_eq_ok] at hround
      rcases hround with ⟨place, hfind, hround⟩ | ⟨place, hfind, hround⟩
      · rcases place with _ | ⟨s, e⟩
        · cases hround
        · simp only [bind_eq_ok] at hround
          rcases hround with ⟨outcome, hcall, hround⟩
          cases outcome with
          | take found =>
              cases hround
          | goOn findpos' postFix' =>
              cases hround
              have hgoOn := callRound_goOn hcall
              rcases occurrence_of_find name.text_word hfind with ⟨c, rest, -, -, hone, hend, -⟩
              have hbounds := find_bounds (pattern_special _) (anchor_pattern _) hfind
              exact ⟨by show findpos ≤ findpos'; omega, fun s found hnone => absurd hnone (by simp)⟩
      · rcases place with _ | ⟨s, e⟩
        · cases hround
          exact ⟨hle, hx⟩
        · simp only [bind_eq_ok] at hround
          rcases hround with ⟨outcome, hcall, hround⟩
          cases outcome with
          | goOn findpos' postFix' =>
              cases hround
          | take found =>
              cases hround
              rcases occurrence_of_find name.text_word hfind with ⟨c, rest, -, -, hone, hend, hlength⟩
              have hbounds := find_bounds (pattern_special _) (anchor_pattern _) hfind
              refine ⟨hle, fun s' found' hsome => ?_⟩
              cases hsome
              omega)
  exact hkeeps.2 _ _ htaken

end Run

section Taken

variable {header findcall postFix line : List Char} {startpos endpos : Nat} {found : Found}

/-- A round that takes an occurrence. -/
theorem callRound_take {lineStart lineEnd s e : Nat}
    (hplaces : stringBetweenPosition header startpos endpos TypeSearch.semicolon TypeSearch.semicolon =
      .ok (lineStart, lineEnd))
    (hfind : find (uncommented (sub header (lineStart + 1 : Nat) lineEnd)) (pattern findcall) 1 false =
      .ok (some (s, e)))
    (h : callRound header findcall postFix startpos endpos = .ok (.take found)) :
    ∃ st st',
      cutBody header ⟨uncommented (sub header (lineStart + 1 : Nat) lineEnd), lineStart, lineEnd,
        postFix⟩ e = .ok st ∧
      cutFront header st s = .ok st' ∧ cutPragma header st' = .ok (found.statement, found.pragmaPack) := by
  simp only [callRound, hplaces, removeAllLineComments_ok, hfind, bind_eq_ok, Except.ok.injEq,
    exists_eq_left'] at h
  rcases h with ⟨st, hbody, st', hfront, named, -, h⟩
  split at h
  · cases h
  · simp only [bind_eq_ok] at h
    rcases h with ⟨assigned, -, h⟩
    split at h
    · cases h
    · simp only [bind_eq_ok] at h
      rcases h with ⟨⟨st'', pragmaPack⟩, hpragma, h⟩
      cases h
      exact ⟨st, st', hbody, hfront, hpragma⟩

theorem cutPragma_none {st : Statement} (h : ¬ pragmaWords <:+: st.line) :
    cutPragma header st = .ok (st, none) := by
  rcases @find_part pragmaWords st.line (by decide) with ⟨place, hfind, hsome⟩
  cases place with
  | none =>
      rw [cutPragma, hfind]
      rfl
  | some place =>
      exact absurd (hsome.1 rfl) h

end Taken

namespace FunctionText

variable {d : FunctionText} {name : Identifier} {p q s e : Nat} {text : List Char}

theorem not_infix_concat {word txt : List Char} {c : Char} (hc : c ∉ word) (h : ¬ word <:+: txt) :
    ¬ word <:+: txt ++ [c] := by
  intro hmem
  rcases hmem with ⟨before, after, heq⟩
  rcases List.eq_nil_or_concat after with rfl | ⟨after', last, rfl⟩
  · rw [List.append_nil] at heq
    rcases List.eq_nil_or_concat word with rfl | ⟨word', last, rfl⟩
    · exact h ⟨[], txt, rfl⟩
    · rw [List.concat_eq_append, ← List.append_assoc] at heq
      have hlast := (List.append_inj' heq rfl).2
      refine hc ?_
      rw [← List.singleton_inj.1 hlast]
      simp
  · rw [List.concat_eq_append, ← List.append_assoc] at heq
    exact h ⟨before, after', (List.append_inj' heq rfl).1⟩

/-- A statement that is cut is not in a packing. -/
theorem Unpacked.line (h : d.Unpacked) {cut : List Char} (hcut : d.IsCut cut) (k : Nat) :
    ¬ pragmaWords <:+: d.cutLine cut ∧ ¬ pragmaWords <:+: cut.drop k ++ d.postFix := by
  have hcuts : ¬ pragmaWords <:+: cut := fun hmem =>
    not_infix_concat (by decide) h.text (hmem.trans hcut.within.isInfix)
  have hdrop : ¬ pragmaWords <:+: cut.drop k := fun hmem =>
    hcuts (hmem.trans (List.drop_suffix _ _).isInfix)
  have hjoined : ¬ pragmaWords <:+: withoutBreaks cut := by
    intro hmem
    have hparts := hmem.trans (hcut.within.filter _).isInfix
    rw [List.filter_append] at hparts
    exact not_infix_concat (by decide) h.joined hparts
  by_cases htail : d.tail = []
  · rw [cutLine, if_pos htail, postFix, if_pos htail, List.append_nil]
    exact ⟨h.code, hdrop⟩
  · rw [cutLine, if_neg htail, postFix, if_neg htail]
    exact ⟨not_infix_concat (by decide) hjoined, not_infix_concat (by decide) hdrop⟩

/-- The line of an occurrence that is taken. -/
theorem taken_statement (h : d.InDeclarator name p q) (haround : d.Around s e)
    (hunpacked : d.Unpacked) (hsurplus : d.lead = [] → '\x7d' ∉ d.surplus) {found : Found}
    (hround : callRound d.header name.text [] s e = .ok (.take found)) :
    found.pragmaPack = none ∧ ∃ cut, d.IsCut cut ∧
      callText d.header found.statement =
        .ok (trim (uncommented (cut.drop d.skip ++ d.postFix))) := by
  have hplaces : stringBetweenPosition d.header s e TypeSearch.semicolon TypeSearch.semicolon =
      .ok (d.before.length, d.before.length + d.statement.length + 1) :=
    stringBetweenPosition_statement d.before_end d.statement_semicolon haround.start_ge
      haround.start_le haround.end_gt haround.end_le
  have hslice : sub d.header (d.before.length + 1 : Nat)
      (d.before.length + d.statement.length + 1 : Nat) = d.statement ++ [';'] := by
    have hcut := d.sub_cut (List.prefix_refl _) 0
    rw [List.length_append, List.length_singleton, ← Nat.add_assoc] at hcut
    exact hcut
  have hfind : find (uncommented (sub d.header (d.before.length + 1 : Nat)
      (d.before.length + d.statement.length + 1 : Nat))) (pattern name.text) 1 false =
      .ok (some (p, q)) := by
    rw [hslice]
    exact h.found
  rcases callRound_take hplaces hfind hround with ⟨st, st', hbody, hfront, hpragma⟩
  rcases d.cutBody_statement h with ⟨cut, hcut, hbody'⟩
  rw [hslice, ← code, hbody'] at hbody
  cases hbody
  rw [d.cutFront_statement h hcut hsurplus] at hfront
  cases hfront
  have hline := hunpacked.line hcut (d.skip - 1)
  rw [cutPragma_none (by show ¬ pragmaWords <:+: ite _ _ _; split; exacts [hline.1, hline.2])]
    at hpragma
  simp only [Except.ok.injEq, Prod.mk.injEq] at hpragma
  rcases hpragma with ⟨hstatement, hpack⟩
  refine ⟨hpack.symm, cut, hcut, ?_⟩
  rw [← hstatement]
  exact d.callText_statement hcut _

theorem exact_spaced (line : List Char) : d.Exact (spaced line) ↔ d.Exact line := by
  rw [Exact, Exact, trim_spaced]

end FunctionText

def difftime : Identifier where
  text := "difftime".toList
  text_ne := by decide
  text_word := by decide
  text_first := by decide

/-- The lines of one call. -/
def functionLinesOf (header : List Char) (name : Identifier) : Except Error (List (List Char)) :=
  (createMissingDefinitions header ⟨[], [], ∅, ∅, ∅⟩ [name]).map fun r => r.1.functionLines

theorem exists_of_functionLinesOf {header : List Char} {name : Identifier} {ls : List (List Char)}
    (h : functionLinesOf header name = .ok ls) :
    ∃ t t' left, createMissingDefinitions header t [name] = .ok (t', left) ∧
      t'.functionLines = t.functionLines ++ ls := by
  unfold functionLinesOf at h
  cases hrun : createMissingDefinitions header ⟨[], [], ∅, ∅, ∅⟩ [name] with
  | error e =>
      rw [hrun] at h
      cases h
  | ok r =>
      rw [hrun] at h
      cases h
      exact ⟨_, r.1, r.2, hrun, rfl⟩

/-- An inline function behind another one. -/
def inlineFunction : FunctionText where
  before := "int bar(void)\n\x7b\n return 1;".toList
  before_end := Or.inr (by decide)
  lead := "\n\x7d".toList
  lead_end := Or.inr ⟨⟨['\n'], by decide⟩, rfl⟩
  lead_plain := by decide
  decl := ⟨"\nint difftime(int x)\n".toList, by decide⟩
  decl_clean := clean_plain (by decide)
  tail := "\x7b\n return x".toList
  tail_begins := Or.inr ⟨"\n return x".toList, rfl⟩
  tail_part := by decide
  after := "\n\x7d\n".toList

/-- An inline function with a comment in the body. -/
def commentedBody : FunctionText where
  before := "int bar(void);".toList
  before_end := Or.inr (by decide)
  lead := []
  lead_end := Or.inl rfl
  lead_plain := List.not_mem_nil
  decl := ⟨"\nint difftime(int x) ".toList, by decide⟩
  decl_clean := clean_plain (by decide)
  tail := "\x7b /* c */ return x".toList
  tail_begins := Or.inr ⟨" /* c */ return x".toList, rfl⟩
  tail_part := by decide
  after := " \x7d\n".toList

end CallSearch
end FfiDef
end LuajitTcpServer
