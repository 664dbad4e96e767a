import LuajitTcpServer.FfiDef.TypeSearch

/-!
# Declarations — structures and unions in a header

The text of a declaration with fields, nested to any depth, and the places in a header that the
search for a type comes to: the `;` in front of an occurrence and the one behind it, the first brace
and the last `typedef`.
-/

namespace LuajitTcpServer
namespace FfiDef
namespace TypeSearch

open Lua Loops

/-! ## Fields -/

/-- The characters that a declaration is taken apart by. -/
def isMark (c : Char) : Bool := c ∈ [';', '\x7b', '\x7d']

/-- A text without them. -/
structure Plain where
  text : List Char
  plain : ∀ c ∈ text, isMark c = false

structure Blanks where
  text : List Char
  blank : ∀ c ∈ text, isBlank c

/-- What stands between the braces of a structure or a union. -/
inductive Fields where
  | done (blanks : Blanks)
  | field (front : Plain) (more : Fields)
  | nested (front : Plain) (inner : Fields) (back : Plain) (more : Fields)

namespace Fields

def text : Fields → List Char
  | .done blanks => blanks.text
  | .field front more => front.text ++ ';' :: more.text
  | .nested front inner back more =>
      front.text ++ '\x7b' :: (inner.text ++ '\x7d' :: (back.text ++ ';' :: more.text))

/-- There is a field. -/
def Any : Fields → Prop
  | .done _ => False
  | _ => True

/-- No field has fields of its own. -/
def Flat : Fields → Prop
  | .done _ => True
  | .field _ more => more.Flat
  | .nested _ _ _ _ => False

/-- The blanks behind the last field. -/
def lastBlanks : Fields → List Char
  | .done blanks => blanks.text
  | .field _ more => more.lastBlanks
  | .nested _ _ _ more => more.lastBlanks

end Fields

theorem Plain.not_mem (p : Plain) {c : Char} (hc : isMark c) : c ∉ p.text := by
  intro hmem
  rw [p.plain c hmem] at hc
  cases hc

theorem Plain.count_eq_zero (p : Plain) {c : Char} (hc : isMark c) : p.text.count c = 0 :=
  List.count_eq_zero.2 (p.not_mem hc)

theorem Blanks.not_mem (b : Blanks) {c : Char} (hc : isBlank c = false) : c ∉ b.text := by
  intro hmem
  rw [b.blank c hmem] at hc
  cases hc

namespace Fields

theorem count_braces (f : Fields) : f.text.count '\x7b' = f.text.count '\x7d' := by
  induction f with
  | done blanks =>
      rw [text, List.count_eq_zero.2 (blanks.not_mem (by decide)),
        List.count_eq_zero.2 (blanks.not_mem (by decide))]
  | field front more ih =>
      simp only [text, List.count_append, List.count_cons, front.count_eq_zero (show isMark '\x7b' by decide),
        front.count_eq_zero (show isMark '\x7d' by decide), ih]
      rfl
  | nested front inner back more ihinner ihmore =>
      simp only [text, List.count_append, List.count_cons, front.count_eq_zero (show isMark '\x7b' by decide),
        front.count_eq_zero (show isMark '\x7d' by decide),
        back.count_eq_zero (show isMark '\x7b' by decide),
        back.count_eq_zero (show isMark '\x7d' by decide), ihinner, ihmore]
      simp
      omega

/-- The first closing brace, and the `;` behind it.  It closes the fields themselves exactly when
none of them has fields of its own. -/
theorem first_closing (f : Fields) (back : Plain) (rest : List Char) :
    ∃ inside between after,
      f.text ++ '\x7d' :: (back.text ++ ';' :: rest) =
        inside ++ '\x7d' :: (between ++ ';' :: after) ∧
      '\x7d' ∉ inside ∧ (∀ c ∈ between, isMark c = false) ∧ rest <:+ after ∧
      (f.Flat → '\x7b' ∉ inside ∧ after = rest) ∧ ('\x7b' ∉ inside → f.Flat) := by
  induction f generalizing back rest with
  | done blanks =>
      exact ⟨blanks.text, back.text, rest, rfl, blanks.not_mem (by decide), back.plain,
        List.suffix_rfl, fun _ => ⟨blanks.not_mem (by decide), rfl⟩, fun _ => trivial⟩
  | field front more ih =>
      rcases ih back rest with
        ⟨inside, between, after, heq, hinside, hbetween, hsuffix, hflat, hopen⟩
      refine ⟨front.text ++ ';' :: inside, between, after, ?_, ?_, hbetween, hsuffix, ?_, ?_⟩
      · rw [text, List.append_assoc, List.cons_append, heq, List.append_assoc, List.cons_append]
      · simp [front.not_mem (show isMark '\x7d' by decide), hinside]
      · intro h
        simp [front.not_mem (show isMark '\x7b' by decide), (hflat h).1, (hflat h).2]
      · intro h
        exact hopen fun hmem => h (List.mem_append_right _ (List.mem_cons_of_mem _ hmem))
  | nested front inner mid more ihinner =>
      rcases ihinner mid (more.text ++ '\x7d' :: (back.text ++ ';' :: rest)) with
        ⟨inside, between, after, heq, hinside, hbetween, hsuffix, -, -⟩
      have hrest : rest <:+ more.text ++ '\x7d' :: (back.text ++ ';' :: rest) :=
        ⟨more.text ++ '\x7d' :: (back.text ++ [';']), by simp⟩
      refine ⟨front.text ++ '\x7b' :: inside, between, after, ?_, ?_, hbetween,
        hrest.trans hsuffix, fun h => h.elim, fun h => absurd (by simp) h⟩
      · rw [List.append_assoc, List.cons_append, ← heq, text]
        simp
      · simp [front.not_mem (show isMark '\x7d' by decide), hinside]

/-- The last `;` of the fields. -/
theorem last_semicolon (f : Fields) (h : f.Any) :
    ∃ inside, f.text = inside ++ ';' :: f.lastBlanks := by
  have hmore : ∀ more : Fields, (more.Any → ∃ inside, more.text = inside ++ ';' :: more.lastBlanks) →
      ∀ front : List Char, ∃ inside, front ++ ';' :: more.text = inside ++ ';' :: more.lastBlanks := by
    intro more ih front
    cases more with
    | done blanks =>
        exact ⟨front, rfl⟩
    | field front' more =>
        rcases ih trivial with ⟨inside, heq⟩
        exact ⟨front ++ ';' :: inside, by rw [heq]; simp⟩
    | nested front' inner back more =>
        rcases ih trivial with ⟨inside, heq⟩
        exact ⟨front ++ ';' :: inside, by rw [heq]; simp⟩
  induction f with
  | done blanks =>
      cases h
  | field front more ih =>
      exact hmore more ih front.text
  | nested front inner back more _ ih =>
      rcases hmore more ih (front.text ++ '\x7b' :: (inner.text ++ '\x7d' :: back.text)) with
        ⟨inside, heq⟩
      refine ⟨inside, ?_⟩
      rw [lastBlanks, ← heq, text]
      simp

theorem lastBlanks_blank (f : Fields) : ∀ c ∈ f.lastBlanks, isBlank c := by
  induction f with
  | done blanks =>
      exact blanks.blank
  | field front more ih =>
      exact ih
  | nested front inner back more _ ih =>
      exact ih

end Fields

/-! ## Declarations -/

/-- A declaration with fields and where it stands: `before` ends with the `;` in front of it. -/
structure Declaration where
  before : List Char
  before_end : before = [] ∨ before.getLast? = some ';'
  gap : Plain
  front : Plain
  front_begins : ∃ c ∈ front.text.head?, isBlank c = false
  fields : Fields
  fields_any : fields.Any
  back : Plain
  after : List Char

namespace Declaration

variable (d : Declaration)

/-- From the first token to the `;` at the end. -/
def text : List Char :=
  d.front.text ++ '\x7b' :: (d.fields.text ++ '\x7d' :: (d.back.text ++ [';']))

/-- It says nothing about packing. -/
def Unpacked : Prop := ∀ line, compared d.text = .ok line → ¬ "pragma pack".toList <:+: line

def header : List Char := d.before ++ (d.gap.text ++ (d.text ++ d.after))

theorem getLast?_text : d.text.getLast? = some ';' := by
  have htext : d.text =
      (d.front.text ++ '\x7b' :: (d.fields.text ++ '\x7d' :: d.back.text)) ++ [';'] := by
    simp [text]
  rw [htext, List.getLast?_concat]

theorem text_solid : Solid d.text := by
  rcases d.front_begins with ⟨c, hfirst, hc⟩
  refine ⟨⟨c, ?_, hc⟩, ';', d.getLast?_text, by decide⟩
  rw [text]
  cases hfront : d.front.text with
  | nil =>
      rw [hfront] at hfirst
      cases hfirst
  | cons c' rest =>
      rw [hfront] at hfirst
      exact hfirst

theorem count_braces : d.text.count '\x7b' = d.text.count '\x7d' := by
  simp only [text, List.count_append, List.count_cons,
    d.front.count_eq_zero (show isMark '\x7b' by decide),
    d.front.count_eq_zero (show isMark '\x7d' by decide),
    d.back.count_eq_zero (show isMark '\x7b' by decide),
    d.back.count_eq_zero (show isMark '\x7d' by decide), d.fields.count_braces]
  simp

end Declaration

/-! ## Parts of the header -/

/-- The first characters of a part, from its character `k` on. -/
theorem sub_between (before part after : List Char) {k m : Nat} (hm : m ≤ part.length) :
    sub (before ++ (part ++ after)) (before.length + k + 1 : Nat) (before.length + m : Nat) =
      (part.take m).drop k := by
  have hwithin := sub_within (before ++ (part ++ after)) (before.length + k) (before.length + m)
  push_cast at hwithin ⊢
  rw [hwithin, List.take_append, List.take_of_length_le (Nat.le_add_right _ _),
    Nat.add_sub_cancel_left, List.take_append_of_le_length hm, List.drop_append,
    List.drop_eq_nil_of_le (Nat.le_add_right _ _), List.nil_append, Nat.add_sub_cancel_left]

/-- A part from its character `k` on. -/
theorem sub_part (before part after : List Char) (k : Nat) :
    sub (before ++ (part ++ after)) (before.length + k + 1 : Nat)
      (before.length + part.length : Nat) = part.drop k := by
  rw [sub_between before part after (Nat.le_refl _), List.take_length]

theorem getElem?_part {before part after : List Char} {p : Nat} (hbefore : before.length < p)
    (hpart : p ≤ before.length + part.length) :
    (before ++ (part ++ after))[p - 1]? = part[p - 1 - before.length]? := by
  rw [List.getElem?_append_right (by omega), List.getElem?_append_left (by omega)]

/-- A word of the header that lies in a part stands in the part. -/
theorem standsAt_part {before part after word : List Char} {start : Nat}
    (h : word <+: (before ++ (part ++ after)).drop start) (hbefore : before.length < start)
    (hpart : start + word.length ≤ before.length + part.length) :
    StandsAt word (part.drop 1) (start - before.length - 1) := by
  have hshift : 1 + (start - before.length - 1) = start - before.length := by omega
  rw [List.drop_append, List.drop_eq_nil_of_le hbefore.le, List.nil_append,
    List.drop_append_of_le_length (by omega)] at h
  refine ⟨by rw [List.length_drop]; omega, ?_⟩
  rw [List.drop_drop, hshift]
  exact List.prefix_of_prefix_length_le h (List.prefix_append _ _) (by rw [List.length_drop]; omega)

theorem backTo_statement {before part after : List Char} {c : Char} {startpos : Nat}
    (hend : before = [] ∨ before.getLast? = some c) (hpart : c ∉ part)
    (hle : before.length ≤ startpos) (hstart : startpos ≤ before.length + part.length) :
    backTo (before ++ (part ++ after)) [c] startpos = before.length := by
  rcases backTo_char (before ++ (part ++ after)) c startpos with ⟨hback, hat, hnone⟩
  have hnot : ∀ p, before.length < p → p ≤ startpos →
      (before ++ (part ++ after))[p - 1]? ≠ some c := by
    intro p hp hps hchar
    rw [getElem?_part hp (hps.trans hstart)] at hchar
    exact hpart (List.mem_of_getElem? hchar)
  rcases Nat.lt_trichotomy (backTo (before ++ (part ++ after)) [c] startpos) before.length with
    hlt | heq | hgt
  · rcases hend with rfl | hlast
    · exact absurd hlt (Nat.not_lt_zero _)
    · refine absurd ?_ (hnone before.length hlt hle)
      rw [List.getElem?_append_left (by omega), ← List.getLast?_eq_getElem?]
      exact hlast
  · exact heq
  · rcases hat with hzero | hchar
    · omega
    · exact absurd hchar (hnot _ hgt hback)

/-- The end of the statement around an occurrence. -/
theorem stringBetweenPosition_end {before part after startstr : List Char} {startpos endpos : Nat}
    (hpart : ';' ∉ part) (hendpos : before.length < endpos)
    (hlast : endpos ≤ before.length + part.length + 1) :
    stringBetweenPosition (before ++ (part ++ ';' :: after)) startpos endpos startstr semicolon =
      .ok (backTo (before ++ (part ++ ';' :: after)) startstr startpos,
        before.length + part.length + 1) := by
  have hnone : ';' ∉ (before ++ part).drop (endpos - 1) := by
    intro hmem
    rw [List.drop_append, List.drop_eq_nil_of_le (by omega), List.nil_append] at hmem
    exact hpart ((List.drop_suffix _ _).subset hmem)
  have hfind := @find_char_at _ _ _ after (show isSpecial ';' = false by decide)
    (by rw [List.length_append]; exact hlast) hnone
  rw [List.append_assoc, List.length_append] at hfind
  have hfind' : find (before ++ (part ++ ';' :: after)) semicolon endpos false =
      .ok (some (before.length + part.length + 1, before.length + part.length + 1)) := hfind
  rw [stringBetweenPosition, hfind']
  rfl

/-- The statement around an occurrence. -/
theorem stringBetweenPosition_statement {before part after : List Char} {startpos endpos : Nat}
    (hend : before = [] ∨ before.getLast? = some ';') (hpart : ';' ∉ part)
    (hle : before.length ≤ startpos) (hstart : startpos ≤ before.length + part.length)
    (hendpos : before.length < endpos) (hlast : endpos ≤ before.length + part.length + 1) :
    stringBetweenPosition (before ++ (part ++ ';' :: after)) startpos endpos semicolon semicolon =
      .ok (before.length, before.length + part.length + 1) := by
  have hback : backTo (before ++ (part ++ ';' :: after)) semicolon startpos = before.length :=
    backTo_statement hend hpart hle hstart
  rw [stringBetweenPosition_end hpart hendpos hlast, hback]

/-! ## Lines without comments -/

theorem reach_slash_none {items : List Item} {txt : List Char}
    (hitem : .one (.char '/') ∈ items) (hslash : '/' ∉ txt) : reach items txt = none := by
  refine reach_absent hitem fun c hc => decide_eq_false ?_
  rintro rfl
  exact hslash hc

theorem replaceRound_text {pattern txt txt' last : List Char}
    (hgsub : gsub txt pattern ['\n'] = .ok txt')
    (h : replaceRound pattern txt = .ok (.again last) ∨ replaceRound pattern txt = .ok (.done last)) :
    last = txt' := by
  simp only [replaceRound, bind_eq_ok, hgsub, Except.ok.injEq] at h
  rcases h with ⟨_, rfl, found, -, h⟩ | ⟨_, rfl, found, -, h⟩
  · split at h
    · cases h
      rfl
    · cases h
  · split at h
    · cases h
    · cases h
      rfl

theorem removeLineStartComments_plain {txt : List Char} (hslash : '/' ∉ txt) :
    removeLineStartComments txt = .ok txt := by
  have habsent : ∀ c ∈ txt, Single.holds (.char '/') c = false := by
    intro c hc
    refine decide_eq_false ?_
    rintro rfl
    exact hslash hc
  have hblock : gsub txt lineStartBlock [] = .ok txt := by
    refine gsub_absent (s := .char '/') rfl (by rw [parse_lineStartBlock]; rfl) ?_ habsent
    rw [parse_lineStartBlock]
    decide
  have htext : gsub txt textStartBlock [] = .ok txt := by
    have h := @gsub_anchored [] txt "(%s-)/%*(.-)%*/".toList textStartBlock rfl
      (by rw [parse_textStartBlock]; rfl)
    rw [parse_textStartBlock, reach_slash_none (by decide) hslash] at h
    exact h
  have hline : lineLoop.run txt = .ok txt := by
    refine Loop.run_done _ ?_
    have hgsub : gsub txt lineStartLine ['\n'] = .ok txt := by
      refine gsub_absent (s := .char '/') rfl (by rw [parse_lineStartLine]; rfl) ?_ habsent
      rw [parse_lineStartLine]
      decide
    rcases find_lineStartLine txt with ⟨found, hfind, hfound⟩
    have hnone : found.isSome = false := by
      rw [Bool.eq_false_iff]
      intro hsome
      rcases hfound.1 hsome with ⟨before, rest, rfl, hreach⟩
      rw [reach_slash_none (by decide) fun hmem => hslash (List.mem_append_right _ hmem)] at hreach
      cases hreach
    show replaceRound lineStartLine txt = _
    simp only [replaceRound, hgsub, hfind, bind, Except.bind, hnone, Bool.false_eq_true, if_false]
    rfl
  have htextLine : textLoop.run txt = .ok txt := by
    refine Loop.run_done _ ?_
    have hreach := @reach_slash_none (afterBlanks lineItems) txt (by decide) hslash
    have hgsub := gsub_textStartLine txt
    rw [hreach, Option.elim_none] at hgsub
    rcases find_textStartLine txt with ⟨found, hfind, hfound⟩
    have hnone : found.isSome = false := by
      rw [Bool.eq_false_iff]
      intro hsome
      rw [hfound, hreach] at hsome
      cases hsome
    show replaceRound textStartLine txt = _
    simp only [replaceRound, hgsub, hfind, bind, Except.bind, hnone, Bool.false_eq_true, if_false]
    rfl
  simp only [removeLineStartComments, hblock, htext, hline, bind, Except.bind]
  exact htextLine

/-- The first token of a text without `/` starts no comment. -/
theorem reach_afterBlanks_front {items : List Item} {front rest : List Char} {c : Char}
    (hitems : ∀ c rest, c ≠ '/' → reach items (c :: rest) = none)
    (hslash : '/' ∉ front ++ [c]) (hc : isBlank c = false) :
    reach (afterBlanks items) (front ++ c :: rest) = none := by
  have hblank : ∀ c rest, isBlank c → reach items (c :: rest) = none := by
    rintro c rest hc
    refine hitems c rest ?_
    rintro rfl
    exact absurd hc (by decide)
  rw [reach_afterBlanks hblank]
  induction front with
  | nil =>
      rw [List.nil_append, List.dropWhile_cons_of_neg (by simp [hc])]
      exact hitems c rest fun heq => hslash (by simp [heq])
  | cons c' front ih =>
      rw [List.cons_append, List.dropWhile_cons]
      split
      · exact ih fun hmem => hslash (List.mem_cons_of_mem _ hmem)
      · exact hitems c' _ fun heq => hslash (by simp [heq])

/-- A comment at the start of a line behind such a text leaves the text as it is. -/
theorem gsub_lineStart_front {items : List Item} {pattern replacement front rest : List Char}
    {c : Char} (hanchor : anchor pattern = (false, pattern))
    (hparse : parse pattern = .one (.char '\n') :: afterBlanks items)
    (hplain : isPlain 0 0 (parse pattern))
    (hitems : ∀ c rest, c ≠ '/' → reach items (c :: rest) = none)
    (hslash : '/' ∉ front ++ [c]) (hc : isBlank c = false) :
    ∃ rest', gsub (front ++ c :: rest) pattern replacement = .ok (front ++ c :: rest') := by
  have hgsub := @gsub_plain replacement (front ++ c :: rest) pattern hanchor hplain
    (by rw [hparse]; rfl)
  rw [List.append_cons, replaceBy_miss_all, ← List.append_cons, ← List.append_cons] at hgsub
  · exact ⟨_, hgsub⟩
  · rintro left right hsplit hne
    rw [hparse, matchLength, Option.map_eq_none_iff]
    cases right with
    | nil =>
        exact absurd rfl hne
    | cons first right =>
        rw [List.cons_append, reach]
        split
        · rename_i hbreak
          rcases List.eq_nil_or_concat' right with rfl | ⟨right, last, rfl⟩
          · -- the last character is no line break
            have hlast := congrArg List.getLast? hsplit
            rw [List.getLast?_concat, List.getLast?_concat] at hlast
            cases hlast
            rw [← of_decide_eq_true hbreak] at hc
            exact absurd hc (by decide)
          · have hlast := congrArg List.getLast? hsplit
            rw [List.getLast?_concat, ← List.cons_append, ← List.append_assoc,
              List.getLast?_concat] at hlast
            cases hlast
            rw [List.append_assoc, List.singleton_append]
            refine reach_afterBlanks_front hitems (fun hmem => hslash ?_) hc
            rw [hsplit]
            exact List.mem_append_right _ (List.mem_cons_of_mem _ hmem)
        · rfl

/-- The comments at the start of a line are removed behind such a text. -/
theorem removeLineStartComments_front {front rest line : List Char} {c : Char}
    (hslash : '/' ∉ front ++ [c]) (hc : isBlank c = false)
    (h : removeLineStartComments (front ++ c :: rest) = .ok line) :
    ∃ rest', line = front ++ c :: rest' := by
  rcases @gsub_lineStart_front blockItems lineStartBlock [] front rest c rfl parse_lineStartBlock
    (by rw [parse_lineStartBlock]; rfl) reach_blockItems_other hslash hc with ⟨rest₁, hblock⟩
  have htext : gsub (front ++ c :: rest₁) textStartBlock [] = .ok (front ++ c :: rest₁) := by
    have hgsub := @gsub_anchored [] (front ++ c :: rest₁) "(%s-)/%*(.-)%*/".toList textStartBlock rfl
      (by rw [parse_textStartBlock]; rfl)
    rw [parse_textStartBlock, reach_afterBlanks_front reach_blockItems_other hslash hc] at hgsub
    exact hgsub
  simp only [removeLineStartComments, bind_eq_ok, hblock, Except.ok.injEq] at h
  rcases h with ⟨_, rfl, _, hsame, txt, hlines, htexts⟩
  rw [htext] at hsame
  cases hsame
  have hkept : ∃ rest', txt = front ++ c :: rest' := by
    refine Loop.run_keeps lineLoop (motive := fun txt => ∃ rest', txt = front ++ c :: rest')
      ⟨rest₁, rfl⟩ hlines ?_
    rintro _ txt' ⟨rest', rfl⟩ hround
    rcases @gsub_lineStart_front lineItems lineStartLine ['\n'] front rest' c rfl
      parse_lineStartLine (by rw [parse_lineStartLine]; rfl) reach_lineItems_other hslash hc with
      ⟨rest'', hgsub⟩
    exact ⟨rest'', replaceRound_text hgsub hround⟩
  rcases hkept with ⟨rest', rfl⟩
  refine Loop.run_keeps textLoop (motive := fun txt => ∃ rest', txt = front ++ c :: rest')
    ⟨rest', rfl⟩ htexts ?_
  rintro _ txt' ⟨rest', rfl⟩ hround
  have hgsub := gsub_textStartLine (front ++ c :: rest')
  rw [reach_afterBlanks_front reach_lineItems_other hslash hc, Option.elim_none] at hgsub
  exact ⟨rest', replaceRound_text hgsub hround⟩

/-- Line breaks are blanks, so they need not be removed first. -/
theorem replaceLine_eq (line : List Char) : replaceLine line = .ok (trim line) := by
  have hstrip := @firstMatch_strip (.char '\n') "\n*(.-)\n*$".toList "^\n*(.-)\n*$".toList line
    (by decide +kernel) (by decide +kernel)
  have hblank : ∀ c, (Single.char '\n').holds c → isBlank c := by
    intro c hc
    rw [← of_decide_eq_true hc]
    decide
  rw [replaceLine, hstrip]
  simp only [bind, Except.bind, valueOf, trimmed_eq, trim_strip hblank]

end TypeSearch
end FfiDef
end LuajitTcpServer
