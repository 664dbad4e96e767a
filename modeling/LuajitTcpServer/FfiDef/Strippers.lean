import LuajitTcpServer.FfiDef.LineStarts

/-!
# Strippers — what the two ways to remove comments leave

`convertTypesToBasicTypes` uses a part of the header with all comments removed next to one from which
the comments at the start of a line were removed first.  Both have the tokens of the code when the
line breaks that are removed with a block comment end no line comment and hold no tokens apart.
-/

namespace LuajitTcpServer
namespace FfiDef

open Lua Loops

/-! ## Texts with plain comments -/

/-- A comment holds no mark of a comment, none with a part of its own marks either. -/
def Piece.MarkFree : Piece → Prop
  | .char _ => True
  | .literal _ => False
  | .line body =>
      ¬ ['/', '/'] <:+: body ∧ ¬ ['*', '/'] <:+: body ∧ ¬ ['/', '*'] <:+: '/' :: body
  | .block body =>
      ¬ ['/', '/'] <:+: body ∧ ¬ ['*', '/'] <:+: body ∧ ¬ ['/', '*'] <:+: body ++ ['*']

instance : DecidablePred Piece.MarkFree
  | .char _ => isTrue trivial
  | .literal _ => isFalse False.elim
  | .line _ => inferInstanceAs (Decidable (_ ∧ _ ∧ _))
  | .block _ => inferInstanceAs (Decidable (_ ∧ _ ∧ _))

/-- A text without literals, whose comments are closed and hold no marks. -/
structure PlainCText extends CText where
  marks : ∀ p ∈ pieces, p.MarkFree

def Piece.blank : Piece → Bool
  | .char c => isBlank c
  | _ => false

/-- What is behind a block comment with only blanks in front of it. -/
def blockAhead (ps : List Piece) : Option (List Piece) :=
  match ps.dropWhile Piece.blank with
  | .block _ :: rest => some rest
  | _ => none

/-- What is behind a line comment with only blanks in front of it, and behind its line break. -/
def lineAhead (ps : List Piece) : Option (List Piece) :=
  match ps.dropWhile Piece.blank with
  | .line _ :: .char c :: rest => if c = '\n' then some rest else none
  | _ => none

/-- A line break, and what `ahead` finds behind it: the number of pieces. -/
def startOf (ahead : List Piece → Option (List Piece)) : List Piece → Option Nat
  | .char c :: ps =>
      if c = '\n' then (ahead ps).map fun rest => (Piece.char c :: ps).length - rest.length else none
  | _ => none

/-- The text without the block comments at the start of a line and the line breaks in front. -/
def cutStarts (ps : List Piece) : List Piece := replaceBy (startOf blockAhead) [] 0 ps

theorem render_append (ps qs : List Piece) : render (ps ++ qs) = render ps ++ render qs :=
  List.flatMap_append

theorem strip_append (ps qs : List Piece) : strip (ps ++ qs) = strip ps ++ strip qs :=
  List.flatMap_append

theorem Reads.tail {p : Piece} {ps : List Piece} (h : Reads (p :: ps)) : Reads ps := by
  cases h with
  | char _ _ hrest =>
      exact hrest
  | literal _ _ hrest =>
      exact hrest
  | line _ _ hrest =>
      exact hrest
  | block _ hrest =>
      exact hrest

theorem Reads.suffix {ps qs : List Piece} (h : Reads ps) (hsuffix : qs <:+ ps) : Reads qs := by
  rcases hsuffix with ⟨front, rfl⟩
  induction front with
  | nil =>
      exact h
  | cons p front ih =>
      exact ih h.tail

section Pieces

variable {ps : List Piece}

/-- Blanks of the text are blanks of the code. -/
theorem dropWhile_render (hmarks : ∀ p ∈ ps, p.MarkFree) :
    (render ps).dropWhile isBlank = render (ps.dropWhile Piece.blank) := by
  induction ps with
  | nil =>
      rfl
  | cons p ps ih =>
      have hrest := ih fun q hq => hmarks q (List.mem_cons_of_mem _ hq)
      have hp := hmarks p List.mem_cons_self
      cases p with
      | char c =>
          change (c :: render ps).dropWhile isBlank = _
          rw [List.dropWhile_cons, List.dropWhile_cons, hrest]
          change _ = render (if isBlank c then _ else _)
          split <;> rfl
      | literal txt =>
          exact hp.elim
      | line body =>
          rfl
      | block body =>
          rfl

theorem exists_of_dropWhile_blank {rest : List Piece} (h : ps.dropWhile Piece.blank = rest) :
    ∃ blanks : List Char, (∀ c ∈ blanks, isBlank c) ∧ ps = blanks.map .char ++ rest := by
  induction ps with
  | nil =>
      exact ⟨[], by simp, h⟩
  | cons p ps ih =>
      rw [List.dropWhile_cons] at h
      split at h
      · rename_i hblank
        rcases ih h with ⟨blanks, hall, hps⟩
        cases p with
        | char c =>
            refine ⟨c :: blanks, ?_, by rw [hps]; rfl⟩
            intro d hd
            rcases List.mem_cons.1 hd with rfl | hd
            · exact hblank
            · exact hall d hd
        | literal txt =>
            cases hblank
        | line body =>
            cases hblank
        | block body =>
            cases hblank
      · exact ⟨[], by simp, h⟩

theorem blockAhead_some {rest : List Piece} (h : blockAhead ps = some rest) :
    ∃ (blanks : List Char) (body : List Char), (∀ c ∈ blanks, isBlank c) ∧
      ps = blanks.map .char ++ .block body :: rest := by
  unfold blockAhead at h
  split at h
  · rename_i body rest' heq
    cases h
    rcases exists_of_dropWhile_blank heq with ⟨blanks, hall, hps⟩
    exact ⟨blanks, body, hall, hps⟩
  · cases h

theorem lineAhead_some {rest : List Piece} (h : lineAhead ps = some rest) :
    ∃ (blanks : List Char) (body : List Char), (∀ c ∈ blanks, isBlank c) ∧
      ps = blanks.map .char ++ .line body :: .char '\n' :: rest := by
  unfold lineAhead at h
  split at h
  · rename_i body c rest' heq
    split at h
    · rename_i hc
      cases h
      rcases exists_of_dropWhile_blank heq with ⟨blanks, hall, hps⟩
      exact ⟨blanks, body, hall, by rw [hps, hc]⟩
    · cases h
  · cases h

theorem reach_blockAhead (hreads : Reads ps) (hmarks : ∀ p ∈ ps, p.MarkFree) :
    reach (afterBlanks blockItems) (render ps) = (blockAhead ps).map render := by
  rw [reach_afterBlanks fun c rest hc => reach_blockItems_blank hc rest, dropWhile_render hmarks]
  have hsuffix := List.dropWhile_suffix (l := ps) Piece.blank
  have hreads' := hreads.suffix hsuffix
  unfold blockAhead
  cases hrest : ps.dropWhile Piece.blank with
  | nil =>
      rfl
  | cons p rest =>
      rw [hrest] at hreads' hsuffix
      cases hreads' with
      | @char c _ _ hslash _ =>
          refine reach_block_none fun hopens => ?_
          have hopens' := opensBlock_cons hopens
          exact (hslash hopens'.1 _ hopens'.2).2 rfl
      | literal _ _ _ =>
          exact (hmarks _ (hsuffix.subset List.mem_cons_self)).elim
      | @line body _ _ _ _ =>
          refine reach_block_none fun hopens => ?_
          exact absurd (opensBlock_cons hopens).2 (by simp)
      | @block body _ hbody _ =>
          have hreach := @reach_block body (render rest) hbody
          have htext : render (.block body :: rest) =
              '/' :: '*' :: (body ++ '*' :: '/' :: render rest) := by
            change '/' :: '*' :: (body ++ ['*', '/']) ++ render rest = _
            simp
          rw [htext, hreach]
          rfl

theorem reach_lineAhead (hreads : Reads ps) (hmarks : ∀ p ∈ ps, p.MarkFree) :
    reach (afterBlanks lineItems) (render ps) = (lineAhead ps).map render := by
  rw [reach_afterBlanks fun c rest hc => reach_lineItems_blank hc rest, dropWhile_render hmarks]
  have hsuffix := List.dropWhile_suffix (l := ps) Piece.blank
  have hreads' := hreads.suffix hsuffix
  have hnone : ∀ txt : List Char, (¬ ∃ rest, txt = '/' :: '/' :: rest) → reach lineItems txt = none := by
    intro txt hno
    cases hreach : reach lineItems txt with
    | none =>
        rfl
    | some left =>
        rcases reach_lineItems_some hreach with ⟨body, heq⟩
        exact absurd ⟨_, heq⟩ hno
  unfold lineAhead
  cases hrest : ps.dropWhile Piece.blank with
  | nil =>
      rfl
  | cons p rest =>
      rw [hrest] at hreads' hsuffix
      cases hreads' with
      | @char c _ _ hslash _ =>
          refine hnone _ ?_
          rintro ⟨txt, heq⟩
          change c :: render rest = _ at heq
          injection heq with hc htxt
          exact (hslash hc '/' (by rw [htxt]; rfl)).1 rfl
      | literal _ _ _ =>
          exact (hmarks _ (hsuffix.subset List.mem_cons_self)).elim
      | @line body _ hbody hnext _ =>
          cases rest with
          | nil =>
              cases hreach : reach lineItems (render [.line body]) with
              | none =>
                  rfl
              | some left =>
                  rcases reach_lineItems_some hreach with ⟨body', heq⟩
                  have hmem : '\n' ∈ render [.line body] := by
                    rw [heq]
                    simp
                  refine absurd ?_ hbody
                  simpa [render, Piece.text] using hmem
          | cons q rest =>
              have hq := hnext q rfl
              rw [hq]
              have hreach := @reach_lineItems body (render rest) hbody
              exact hreach
      | @block body _ _ _ =>
          refine hnone _ ?_
          rintro ⟨txt, heq⟩
          injection heq with _ htxt
          injection htxt with hstar _
          exact absurd hstar (by decide)

end Pieces

/-- A slash behind blanks inside a block comment opens nothing. -/
theorem not_opens_inside {first last txt rest : List Char} {c : Char}
    (hmark : ¬ ['/', c] <:+: first ++ last ++ ['*']) :
    (last ++ '*' :: '/' :: txt).dropWhile isBlank ≠ '/' :: c :: rest := by
  intro heq
  rw [dropWhile_append_cons (by decide)] at heq
  have hcut := List.takeWhile_append_dropWhile (p := isBlank) (l := last)
  cases hlast : last.dropWhile isBlank with
  | nil =>
      rw [hlast] at heq
      injection heq with hstar _
      exact absurd hstar (by decide)
  | cons d inside =>
      rw [hlast] at heq hcut
      injection heq with hd hinside
      refine hmark ⟨first ++ last.takeWhile isBlank, (inside ++ ['*']).tail, ?_⟩
      have hhead : inside ++ ['*'] = c :: (inside ++ ['*']).tail := by
        cases inside with
        | nil =>
            injection hinside with hc _
            rw [← hc]
            rfl
        | cons e inside =>
            injection hinside with hc _
            rw [← hc]
            rfl
      conv_rhs => rw [← hcut, hd]
      simp only [List.append_assoc, List.cons_append, List.nil_append]
      rw [hhead]
      rfl

/-- A line break in a block comment is inside it. -/
theorem newline_inside {body left right : List Char}
    (h : '/' :: '*' :: (body ++ ['*', '/']) = left ++ '\n' :: right) :
    ∃ first last, body = first ++ last ∧ right = last ++ ['*', '/'] := by
  cases left with
  | nil =>
      injection h with hc _
      exact absurd hc (by decide)
  | cons c left =>
      injection h with _ h
      cases left with
      | nil =>
          injection h with hc _
          exact absurd hc (by decide)
      | cons d left =>
          injection h with _ h
          rcases List.append_eq_append_iff.1 h with ⟨more, -, hmore⟩ | ⟨more, rfl, hmore⟩
          · have hmem : '\n' ∈ ['*', '/'] := by
              rw [hmore]
              simp
            exact absurd hmem (by decide)
          · cases more with
            | nil =>
                injection hmore with hc _
                exact absurd hc (by decide)
            | cons e more =>
                injection hmore with _ hright
                exact ⟨left ++ [e], more, by simp, hright⟩

section Sites

variable {items : List Item} {ahead : List Piece → Option (List Piece)} {replacement : List Piece}

/-- Pieces are taken apart into starts of lines that are replaced and pieces that stay. -/
theorem starts_induction (hsuffix : ∀ {ps rest : List Piece}, ahead ps = some rest → rest <:+ ps)
    {motive : List Piece → Prop} (nil : motive [])
    (here : ∀ front rest, ahead (front ++ rest) = some rest → motive rest →
      motive (.char '\n' :: (front ++ rest)))
    (cons : ∀ p ps, startOf ahead (p :: ps) = none → motive ps → motive (p :: ps))
    (ps : List Piece) : motive ps := by
  induction hlength : ps.length using Nat.strongRecOn generalizing ps with
  | ind n ih =>
      cases ps with
      | nil =>
          exact nil
      | cons p ps =>
          rw [List.length_cons] at hlength
          cases hstart : startOf ahead (p :: ps) with
          | none =>
              exact cons p ps hstart (ih ps.length (by omega) ps rfl)
          | some taken =>
              cases p with
              | char c =>
                  rw [startOf] at hstart
                  split at hstart
                  · rename_i hc
                    rcases Option.map_eq_some_iff.1 hstart with ⟨rest, hsome, -⟩
                    rcases hsuffix hsome with ⟨front, rfl⟩
                    rw [List.length_append] at hlength
                    rw [hc]
                    exact here front rest hsome (ih rest.length (by omega) rest rfl)
                  · cases hstart
              | literal txt =>
                  cases hstart
              | line body =>
                  cases hstart
              | block body =>
                  cases hstart

theorem replaceBy_start {front rest : List Piece} (h : ahead (front ++ rest) = some rest) :
    replaceBy (startOf ahead) replacement 0 (.char '\n' :: (front ++ rest)) =
      replacement ++ replaceBy (startOf ahead) replacement 0 rest := by
  refine @replaceBy_hit _ _ _ (.char '\n' :: front) rest (List.cons_ne_nil _ _) ?_
  rw [List.cons_append, startOf, if_pos rfl, h]
  simp only [Option.map_some, List.length_cons, List.length_append, Option.some.injEq]
  omega

/-- A replacement at the starts of the lines replaces pieces. -/
theorem replaceBy_render
    (hahead : ∀ {ps : List Piece}, Reads ps → (∀ p ∈ ps, p.MarkFree) →
      reach (afterBlanks items) (render ps) = (ahead ps).map render)
    (hsuffix : ∀ {ps rest : List Piece}, ahead ps = some rest → rest <:+ ps)
    (hinside : ∀ {first last txt : List Char}, (Piece.block (first ++ last)).MarkFree →
      reach (afterBlanks items) (last ++ '*' :: '/' :: txt) = none)
    {ps : List Piece} (hreads : Reads ps) (hmarks : ∀ p ∈ ps, p.MarkFree) :
    replaceBy (matchLength (.one (.char '\n') :: afterBlanks items)) (render replacement) 0
        (render ps) =
      render (replaceBy (startOf ahead) replacement 0 ps) := by
  have hreach : ∀ (c : Char) (txt : List Char), reach (.one (.char '\n') :: afterBlanks items)
      (c :: txt) = if '\n' = c then reach (afterBlanks items) txt else none := by
    intro c txt
    rw [reach]
    simp only [Single.holds, decide_eq_true_eq]
  have hmiss : ∀ (c : Char) (txt : List Char), '\n' ≠ c →
      matchLength (.one (.char '\n') :: afterBlanks items) (c :: txt) = none := by
    intro c txt hc
    rw [matchLength, hreach, if_neg hc, Option.map_none]
  induction ps using starts_induction hsuffix with
  | nil =>
      rfl
  | here front rest hsome ih =>
      have hmarks' : ∀ q ∈ front ++ rest, q.MarkFree := fun q hq =>
        hmarks q (List.mem_cons_of_mem _ hq)
      have hafter := ih (hreads.tail.suffix (List.suffix_append front rest))
        fun q hq => hmarks' q (List.mem_append_right _ hq)
      have htaken : matchLength (.one (.char '\n') :: afterBlanks items)
          (('\n' :: render front) ++ render rest) = some ('\n' :: render front).length := by
        rw [matchLength, List.cons_append, hreach, if_pos rfl, ← render_append,
          hahead hreads.tail hmarks', hsome, render_append]
        simp only [Option.map_some, List.length_cons, List.length_append, Option.some.injEq]
        omega
      change replaceBy _ _ 0 ('\n' :: render (front ++ rest)) = _
      rw [render_append, ← List.cons_append, replaceBy_hit (List.cons_ne_nil _ _) htaken,
        replaceBy_start hsome, hafter, render_append]
  | cons p ps hstart ih =>
      have hmarks' : ∀ q ∈ ps, q.MarkFree := fun q hq => hmarks q (List.mem_cons_of_mem _ hq)
      have hrest := ih hreads.tail hmarks'
      have hp := hmarks p List.mem_cons_self
      have hskip : replaceBy (matchLength (.one (.char '\n') :: afterBlanks items))
          (render replacement) 0 (p.text ++ render ps) = p.text ++ replaceBy
            (matchLength (.one (.char '\n') :: afterBlanks items)) (render replacement) 0
            (render ps) := by
        refine replaceBy_miss_all fun left right heq hne => ?_
        cases right with
        | nil =>
            exact absurd rfl hne
        | cons c right =>
            by_cases hc : '\n' = c
            · cases p with
              | char d =>
                  rcases List.append_eq_singleton_iff.1 heq.symm with ⟨rfl, hright⟩ | ⟨-, hnil⟩
                  · injection hright with hd hright
                    rw [startOf, if_pos (hd.symm.trans hc.symm), Option.map_eq_none_iff] at hstart
                    rw [hright, List.cons_append, List.nil_append, matchLength, hreach, if_pos hc,
                      hahead hreads.tail hmarks', hstart]
                    rfl
                  · cases hnil
              | literal txt =>
                  exact hp.elim
              | line body =>
                  have hbody : '\n' ∉ '/' :: '/' :: body := by
                    cases hreads with
                    | line hbody _ _ =>
                        simp [hbody]
                  refine absurd ?_ hbody
                  change '\n' ∈ (Piece.line body).text
                  rw [heq, hc]
                  exact List.mem_append_right _ List.mem_cons_self
              | block body =>
                  rcases newline_inside (hc ▸ heq) with ⟨first, last, rfl, rfl⟩
                  rw [matchLength, List.cons_append, hreach, if_pos hc, List.append_assoc]
                  change Option.map _ (reach (afterBlanks items)
                    (last ++ '*' :: '/' :: render ps)) = none
                  rw [hinside hp, Option.map_none]
            · exact hmiss c _ hc
      change replaceBy _ _ 0 (p.text ++ render ps) = _
      rw [hskip, replaceBy_miss hstart, hrest]
      rfl

end Sites

theorem blockAhead_suffix {ps rest : List Piece} (h : blockAhead ps = some rest) : rest <:+ ps := by
  rcases blockAhead_some h with ⟨blanks, body, -, rfl⟩
  exact ⟨blanks.map .char ++ [.block body], by simp⟩

theorem lineAhead_suffix {ps rest : List Piece} (h : lineAhead ps = some rest) : rest <:+ ps := by
  rcases lineAhead_some h with ⟨blanks, body, -, rfl⟩
  exact ⟨blanks.map .char ++ [.line body, .char '\n'], by simp⟩

theorem blockItems_inside {first last txt : List Char} (h : (Piece.block (first ++ last)).MarkFree) :
    reach (afterBlanks blockItems) (last ++ '*' :: '/' :: txt) = none := by
  rw [reach_afterBlanks fun c rest hc => reach_blockItems_blank hc rest]
  refine reach_block_none ?_
  rintro ⟨body, rest, heq⟩
  exact not_opens_inside h.2.2 heq

theorem lineItems_inside {first last txt : List Char} (h : (Piece.block (first ++ last)).MarkFree) :
    reach (afterBlanks lineItems) (last ++ '*' :: '/' :: txt) = none := by
  have hopens : ¬ ['/', '/'] <:+: first ++ last ++ ['*'] := by
    intro hmark
    rcases List.infix_concat_iff.1 hmark with ⟨before, hend⟩ | hmark
    · have hlast := congrArg List.getLast? hend
      rw [List.getLast?_append, List.getLast?_concat] at hlast
      cases hlast
    · exact h.1 hmark
  rw [reach_afterBlanks fun c rest hc => reach_lineItems_blank hc rest]
  cases hreach : reach lineItems ((last ++ '*' :: '/' :: txt).dropWhile isBlank) with
  | none =>
      rfl
  | some left =>
      rcases reach_lineItems_some hreach with ⟨body, heq⟩
      exact absurd heq (not_opens_inside hopens)

/-- The block comments at the start of a line. -/
theorem gsub_lineStartBlock {ps : List Piece} (hreads : Reads ps) (hmarks : ∀ p ∈ ps, p.MarkFree) :
    gsub (render ps) lineStartBlock [] = .ok (render (cutStarts ps)) := by
  have h := @gsub_plain [] (render ps) lineStartBlock rfl (by rw [parse_lineStartBlock]; rfl)
    (by rw [parse_lineStartBlock]; rfl)
  rw [parse_lineStartBlock] at h
  rw [h, cutStarts, ← @replaceBy_render blockItems blockAhead [] reach_blockAhead blockAhead_suffix
    blockItems_inside ps hreads hmarks]
  rfl

/-- The block comment at the start of the text. -/
theorem gsub_textStartBlock {ps : List Piece} (hreads : Reads ps) (hmarks : ∀ p ∈ ps, p.MarkFree) :
    gsub (render ps) textStartBlock [] = .ok (render ((blockAhead ps).getD ps)) := by
  have h := @gsub_anchored [] (render ps) "(%s-)/%*(.-)%*/".toList textStartBlock rfl
    (by rw [parse_textStartBlock]; rfl)
  rw [parse_textStartBlock, reach_blockAhead hreads hmarks] at h
  rw [h]
  cases blockAhead ps <;> rfl

/-- The line comments at the start of a line, in one round. -/
def dropLines (ps : List Piece) : List Piece := replaceBy (startOf lineAhead) [.char '\n'] 0 ps

theorem replaceBy_dropLines {ps : List Piece} (hreads : Reads ps) (hmarks : ∀ p ∈ ps, p.MarkFree) :
    replaceBy (matchLength lineStartItems) ['\n'] 0 (render ps) = render (dropLines ps) :=
  @replaceBy_render lineItems lineAhead [.char '\n'] reach_lineAhead lineAhead_suffix
    lineItems_inside ps hreads hmarks

theorem dropLines_start {front rest : List Piece} (h : lineAhead (front ++ rest) = some rest) :
    dropLines (.char '\n' :: (front ++ rest)) = .char '\n' :: dropLines rest :=
  replaceBy_start h

theorem dropLines_cons {p : Piece} {ps : List Piece} (h : startOf lineAhead (p :: ps) = none) :
    dropLines (p :: ps) = p :: dropLines ps :=
  replaceBy_miss h

/-! ## What the line comments are replaced by -/

theorem head?_dropLines (ps : List Piece) : (dropLines ps).head? = ps.head? := by
  induction ps using starts_induction lineAhead_suffix with
  | nil =>
      rfl
  | here front rest hsome _ =>
      rw [dropLines_start hsome]
      rfl
  | cons p ps hstart _ =>
      rw [dropLines_cons hstart]
      rfl

theorem Piece.text_ne {p : Piece} (h : p.MarkFree) : p.text ≠ [] := by
  cases p with
  | literal txt =>
      exact h.elim
  | _ =>
      exact List.cons_ne_nil _ _

theorem head?_render {ps qs : List Piece} (hmarks : ∀ p ∈ ps, p.MarkFree) (h : qs.head? = ps.head?) :
    (render qs).head? = (render ps).head? := by
  cases ps with
  | nil =>
      rw [List.head?_eq_none_iff.1 h]
  | cons p ps =>
      rcases List.head?_eq_some_iff.1 h with ⟨qs, rfl⟩
      have hne := Piece.text_ne (hmarks p List.mem_cons_self)
      change (p.text ++ render qs).head? = (p.text ++ render ps).head?
      rw [List.head?_append_of_ne_nil _ hne, List.head?_append_of_ne_nil _ hne]

theorem marks_dropLines {ps : List Piece} (hmarks : ∀ p ∈ ps, p.MarkFree) :
    ∀ p ∈ dropLines ps, p.MarkFree := by
  induction ps using starts_induction lineAhead_suffix with
  | nil =>
      exact hmarks
  | here front rest hsome ih =>
      rw [dropLines_start hsome]
      intro p hp
      rcases List.mem_cons.1 hp with rfl | hp
      · trivial
      · exact ih (fun q hq => hmarks q (List.mem_cons_of_mem _ (List.mem_append_right _ hq))) p hp
  | cons p ps hstart ih =>
      rw [dropLines_cons hstart]
      intro q hq
      rcases List.mem_cons.1 hq with rfl | hq
      · exact hmarks q List.mem_cons_self
      · exact ih (fun q hq => hmarks q (List.mem_cons_of_mem _ hq)) q hq

theorem reads_dropLines {ps : List Piece} (hreads : Reads ps) (hmarks : ∀ p ∈ ps, p.MarkFree) :
    Reads (dropLines ps) := by
  induction ps using starts_induction lineAhead_suffix with
  | nil =>
      exact hreads
  | here front rest hsome ih =>
      rw [dropLines_start hsome]
      refine .char (by decide) (fun heq => absurd heq (by decide)) (ih ?_ fun q hq => ?_)
      · exact hreads.tail.suffix (List.suffix_append front rest)
      · exact hmarks q (List.mem_cons_of_mem _ (List.mem_append_right _ hq))
  | cons p ps hstart ih =>
      have hmarks' : ∀ q ∈ ps, q.MarkFree := fun q hq => hmarks q (List.mem_cons_of_mem _ hq)
      have hrest := ih hreads.tail hmarks'
      have hhead := head?_dropLines ps
      rw [dropLines_cons hstart]
      cases hreads with
      | char hquote hslash _ =>
          refine .char hquote ?_ hrest
          rw [head?_render hmarks' hhead]
          exact hslash
      | literal hquote hbody _ =>
          exact .literal hquote hbody hrest
      | line hbody hnext _ =>
          refine .line hbody ?_ hrest
          rw [hhead]
          exact hnext
      | block hbody _ =>
          exact .block hbody hrest

/-! ## Tokens -/

theorem tokens_blanks {x y blanks : List Char} {b : Char} (hb : isBlank b)
    (hblanks : ∀ c ∈ blanks, isBlank c) : tokens (x ++ b :: (blanks ++ y)) = tokens x ++ tokens y := by
  induction blanks generalizing x b with
  | nil =>
      exact tokens_blank hb
  | cons c blanks ih =>
      have hrest := @ih [] c (hblanks c List.mem_cons_self)
        fun d hd => hblanks d (List.mem_cons_of_mem _ hd)
      rw [tokens_blank hb]
      exact congrArg (tokens x ++ ·) hrest

theorem strip_blanks (blanks : List Char) : strip (blanks.map .char) = blanks := by
  induction blanks with
  | nil =>
      rfl
  | cons c blanks ih =>
      exact congrArg (c :: ·) ih

theorem tokens_dropLines (before : List Char) (ps : List Piece) :
    tokens (before ++ strip (dropLines ps)) = tokens (before ++ strip ps) := by
  induction ps using starts_induction lineAhead_suffix generalizing before with
  | nil =>
      rfl
  | here front rest hsome ih =>
      rcases lineAhead_some hsome with ⟨blanks, body, hblanks, heq⟩
      have hold : strip (.char '\n' :: (front ++ rest)) =
          '\n' :: (blanks ++ ('\n' :: strip rest)) := by
        rw [heq]
        change '\n' :: strip (blanks.map .char ++ .line body :: .char '\n' :: rest) = _
        rw [strip_append, strip_blanks]
        rfl
      have hnew : strip (.char '\n' :: dropLines rest) = '\n' :: strip (dropLines rest) := rfl
      have hline := @tokens_blank [] (strip rest) '\n' (by decide)
      rw [dropLines_start hsome, hold, hnew, tokens_blank (by decide),
        tokens_blanks (by decide) hblanks]
      exact congrArg (tokens before ++ ·) ((ih []).trans hline.symm)
  | cons p ps hstart ih =>
      rw [dropLines_cons hstart]
      change tokens (before ++ (p.code ++ strip (dropLines ps))) =
        tokens (before ++ (p.code ++ strip ps))
      rw [← List.append_assoc, ih, List.append_assoc]

theorem tokens_blockAhead {ps rest : List Piece} (h : blockAhead ps = some rest) :
    tokens (strip rest) = tokens (strip ps) := by
  rcases blockAhead_some h with ⟨blanks, body, hblanks, rfl⟩
  rw [strip_append, strip_blanks]
  change _ = tokens (blanks ++ strip rest)
  cases blanks with
  | nil =>
      rfl
  | cons b blanks =>
      have hsplit := @tokens_blanks [] (strip rest) blanks b (hblanks b List.mem_cons_self)
        fun c hc => hblanks c (List.mem_cons_of_mem _ hc)
      exact hsplit.symm

theorem tokens_lineAhead {ps rest : List Piece} (h : lineAhead ps = some rest) :
    tokens (strip (.char '\n' :: rest)) = tokens (strip ps) := by
  rcases lineAhead_some h with ⟨blanks, body, hblanks, rfl⟩
  rw [strip_append, strip_blanks]
  change _ = tokens (blanks ++ strip (.char '\n' :: rest))
  cases blanks with
  | nil =>
      rfl
  | cons b blanks =>
      have hsplit := @tokens_blanks [] (strip (.char '\n' :: rest)) blanks b
        (hblanks b List.mem_cons_self) fun c hc => hblanks c (List.mem_cons_of_mem _ hc)
      exact hsplit.symm

/-! ## The loops -/

/-- The text is read as these pieces, with these tokens of the code. -/
structure Keeps (toks : List (List Char)) (txt : List Char) (ps : List Piece) : Prop where
  text : txt = render ps
  reads : Reads ps
  marks : ∀ p ∈ ps, p.MarkFree
  tokens : tokens (strip ps) = toks

theorem lineLoop_keeps {toks : List (List Char)} {txt : List Char}
    (h : ∃ ps, Keeps toks txt ps) : ∃ txt', lineLoop.run txt = .ok txt' ∧ ∃ ps, Keeps toks txt' ps := by
  refine lineLoop.run_invariant h ?_
  rintro txt ⟨ps, rfl, hreads, hmarks, htokens⟩
  have hkeeps : Keeps toks (render (dropLines ps)) (dropLines ps) :=
    ⟨rfl, reads_dropLines hreads hmarks, marks_dropLines hmarks,
      (tokens_dropLines [] ps).trans htokens⟩
  refine ⟨render (dropLines ps), ⟨_, hkeeps⟩, ?_⟩
  rcases find_lineStartLine (render (dropLines ps)) with ⟨found, hfind, -⟩
  simp only [lineLoop, replaceRound, gsub_lineStartLine, replaceBy_dropLines hreads hmarks, hfind,
    bind, Except.bind]
  split
  · exact Or.inl rfl
  · exact Or.inr rfl

theorem textLoop_keeps {toks : List (List Char)} {txt : List Char}
    (h : ∃ ps, Keeps toks txt ps) : ∃ txt', textLoop.run txt = .ok txt' ∧ ∃ ps, Keeps toks txt' ps := by
  refine textLoop.run_invariant h ?_
  rintro txt ⟨ps, rfl, hreads, hmarks, htokens⟩
  have hgsub := gsub_textStartLine (render ps)
  rw [reach_lineAhead hreads hmarks] at hgsub
  have hkeeps : ∃ qs, (((lineAhead ps).map render).elim (render ps) fun rest => '\n' :: rest) =
      render qs ∧ Keeps toks (render qs) qs := by
    cases hsome : lineAhead ps with
    | none =>
        exact ⟨ps, rfl, rfl, hreads, hmarks, htokens⟩
    | some rest =>
        have hsuffix := lineAhead_suffix hsome
        refine ⟨.char '\n' :: rest, rfl, rfl, ?_, ?_, (tokens_lineAhead hsome).trans htokens⟩
        · exact .char (by decide) (fun heq => absurd heq (by decide)) (hreads.suffix hsuffix)
        · intro p hp
          rcases List.mem_cons.1 hp with rfl | hp
          · trivial
          · exact hmarks p (hsuffix.subset hp)
  rcases hkeeps with ⟨qs, heq, hkeeps⟩
  rw [heq] at hgsub
  refine ⟨render qs, ⟨qs, hkeeps⟩, ?_⟩
  rcases find_textStartLine (render qs) with ⟨found, hfind, -⟩
  simp only [textLoop, replaceRound, hgsub, hfind, bind, Except.bind]
  split
  · exact Or.inl rfl
  · exact Or.inr rfl

/-! ## removeAllLineComments -/

theorem tokens_intercalate (ls : List (List Char)) :
    tokens (['\n'].intercalate ls) = ls.flatMap tokens := by
  induction ls with
  | nil =>
      rfl
  | cons line ls ih =>
      cases ls with
      | nil =>
          rw [List.intercalate_singleton, List.flatMap_cons, List.flatMap_nil, List.append_nil]
      | cons next ls =>
          rw [List.intercalate_cons_cons, List.append_assoc, List.singleton_append,
            tokens_blank (by decide), ih]
          rfl

theorem intercalate_lines (txt : List Char) : ['\n'].intercalate (lines txt) = txt := by
  have hsame : (fun c : Char => !decide (c ≠ '\n')) = (· == '\n') := by
    funext c
    by_cases hc : c = '\n'
    · rw [hc]
      rfl
    · simp [hc]
  rw [lines, hsame, ← List.splitOn_eq_splitOnP, List.intercalate_splitOn]

theorem tokens_lines (txt : List Char) : (lines txt).flatMap tokens = tokens txt := by
  rw [← tokens_intercalate, intercalate_lines]

/-- A comment without marks opens no block comment. -/
theorem unmarked_of_marks {ps : List Piece} (hreads : Reads ps) (hmarks : ∀ p ∈ ps, p.MarkFree) :
    Unmarked ps := by
  induction hreads with
  | nil =>
      trivial
  | char _ _ _ ih =>
      exact ⟨trivial, ih fun q hq => hmarks q (List.mem_cons_of_mem _ hq)⟩
  | literal _ _ _ _ =>
      exact (hmarks _ List.mem_cons_self).elim
  | @line body ps hbody hnext _ ih =>
      refine ⟨?_, ih fun q hq => hmarks q (List.mem_cons_of_mem _ hq)⟩
      rintro first last heq hne ⟨inside, rest, hopens⟩
      cases last with
      | nil =>
          exact hne rfl
      | cons c last =>
          injection hopens with hc hopens
          cases last with
          | cons d last =>
              injection hopens with hd _
              refine (hmarks _ List.mem_cons_self).2.2 ⟨first, last, ?_⟩
              rw [heq, hc, hd]
              simp
          | nil =>
              cases ps with
              | nil =>
                  cases hopens
              | cons q ps =>
                  rw [hnext q rfl] at hopens
                  injection hopens with hd _
                  exact absurd hd (by decide)
  | block _ _ ih =>
      exact ⟨trivial, ih fun q hq => hmarks q (List.mem_cons_of_mem _ hq)⟩

/-- The tokens that `removeAllLineComments` leaves are those of the code. -/
theorem removeAllLineComments_tokens {ps : List Piece} (hreads : Reads ps)
    (hmarks : ∀ p ∈ ps, p.MarkFree) :
    ∃ txt, removeAllLineComments (render ps) = .ok txt ∧ tokens txt = tokens (strip ps) := by
  have hunmarked := unmarked_of_marks hreads hmarks
  refine ⟨_, removeAllLineComments_eq (render ps), ?_⟩
  have hfull : ∀ ls : List (List Char), ((ls.filter (· ≠ [])).map cutLine).flatMap tokens =
      (ls.map cutLine).flatMap tokens := by
    intro ls
    induction ls with
    | nil =>
        rfl
    | cons line ls ih =>
        by_cases hne : line = []
        · rw [hne, List.filter_cons_of_neg (by simp), ih]
          rfl
        · rw [List.filter_cons_of_pos (by simpa using hne), List.map_cons, List.flatMap_cons, ih]
          rfl
  rw [tokens_intercalate, removeBlocks hreads hunmarked, fullLines, runs, hfull]
  change ((lines (withLines ps)).map cutLine).flatMap tokens = _
  rw [lines_strip hreads hunmarked, tokens_lines]

/-! ## The code around the comments at the start of a line -/

/-- The code between the block comments that go with a line break in front of them. -/
def segmentsFrom : Nat → List Piece → List (List Char)
  | _, [] => [[]]
  | skip + 1, _ :: ps => segmentsFrom skip ps
  | 0, p :: ps =>
      match startOf blockAhead (p :: ps) with
      | some taken => [] :: segmentsFrom (taken - 1) ps
      | none => (segmentsFrom 0 ps).modifyHead (p.code ++ ·)

def segments (ps : List Piece) : List (List Char) := segmentsFrom 0 ps

theorem segmentsFrom_skip (front rest : List Piece) :
    segmentsFrom front.length (front ++ rest) = segments rest := by
  induction front with
  | nil =>
      rfl
  | cons p front ih =>
      rw [List.length_cons, List.cons_append, segmentsFrom, ih]

theorem segments_start {front rest : List Piece} (h : blockAhead (front ++ rest) = some rest) :
    segments (.char '\n' :: (front ++ rest)) = [] :: segments rest := by
  have hstart : startOf blockAhead (.char '\n' :: (front ++ rest)) = some (front.length + 1) := by
    rw [startOf, if_pos rfl, h]
    simp only [Option.map_some, List.length_cons, List.length_append, Option.some.injEq]
    omega
  rw [segments, segmentsFrom, hstart]
  exact congrArg ([] :: ·) (segmentsFrom_skip front rest)

theorem segments_cons {p : Piece} {ps : List Piece} (h : startOf blockAhead (p :: ps) = none) :
    segments (p :: ps) = (segments ps).modifyHead (p.code ++ ·) := by
  rw [segments, segmentsFrom, h]
  rfl

theorem cutStarts_start {front rest : List Piece} (h : blockAhead (front ++ rest) = some rest) :
    cutStarts (.char '\n' :: (front ++ rest)) = cutStarts rest :=
  replaceBy_start h

theorem cutStarts_cons {p : Piece} {ps : List Piece} (h : startOf blockAhead (p :: ps) = none) :
    cutStarts (p :: ps) = p :: cutStarts ps :=
  replaceBy_miss h

theorem exists_segments (ps : List Piece) : ∃ part parts, segments ps = part :: parts := by
  induction ps using starts_induction blockAhead_suffix with
  | nil =>
      exact ⟨[], [], rfl⟩
  | here front rest hsome _ =>
      exact ⟨[], segments rest, segments_start hsome⟩
  | cons p ps hstart ih =>
      rcases ih with ⟨part, parts, heq⟩
      exact ⟨p.code ++ part, parts, by rw [segments_cons hstart, heq, List.modifyHead_cons]⟩

/-- The segments together are the code that is left. -/
theorem flatten_segments (ps : List Piece) : (segments ps).flatten = strip (cutStarts ps) := by
  induction ps using starts_induction blockAhead_suffix with
  | nil =>
      rfl
  | here front rest hsome ih =>
      rw [segments_start hsome, cutStarts_start hsome, List.flatten_cons, List.nil_append, ih]
  | cons p ps hstart ih =>
      rcases exists_segments ps with ⟨part, parts, heq⟩
      rw [segments_cons hstart, cutStarts_cons hstart]
      change _ = p.code ++ strip (cutStarts ps)
      rw [← ih, heq, List.modifyHead_cons, List.flatten_cons, List.flatten_cons, List.append_assoc]

/-- The segments apart have the tokens of the code. -/
theorem tokens_segments (before : List Char) (ps : List Piece) :
    ((segments ps).modifyHead (before ++ ·)).flatMap tokens = tokens (before ++ strip ps) := by
  induction ps using starts_induction blockAhead_suffix generalizing before with
  | nil =>
      change tokens (before ++ []) ++ [] = _
      rw [List.append_nil]
      rfl
  | here front rest hsome ih =>
      rcases exists_segments rest with ⟨part, parts, heq⟩
      rcases blockAhead_some hsome with ⟨blanks, body, hblanks, hpieces⟩
      have hrest := ih []
      rw [heq] at hrest
      have hcode : strip (.char '\n' :: (front ++ rest)) = '\n' :: (blanks ++ strip rest) := by
        rw [hpieces]
        change '\n' :: strip (blanks.map .char ++ .block body :: rest) = _
        rw [strip_append, strip_blanks]
        rfl
      rw [segments_start hsome, hcode, tokens_blanks (by decide) hblanks, List.modifyHead_cons,
        List.append_nil, List.flatMap_cons, heq]
      exact congrArg (tokens before ++ ·) hrest
  | cons p ps hstart ih =>
      rcases exists_segments ps with ⟨part, parts, heq⟩
      have hrest := ih (before ++ p.code)
      rw [heq, List.modifyHead_cons, List.append_assoc, List.append_assoc] at hrest
      rw [segments_cons hstart, heq, List.modifyHead_cons, List.modifyHead_cons]
      exact hrest

/-! ## Line comments that lose their line break -/

def Piece.inlineBlank : Piece → Bool
  | .char c => isBlank c && c ≠ '\n'
  | _ => false

/-- A line comment takes in the blanks behind it. -/
def absorbed : Piece → List Piece → List Piece
  | .line body, ps =>
      .line (body ++ render (ps.takeWhile Piece.inlineBlank)) :: ps.dropWhile Piece.inlineBlank
  | p, ps => p :: ps

def absorb (ps : List Piece) : List Piece := ps.foldr absorbed []

/-- The pieces without the block comments at the start of a line and the line breaks in front. -/
def joined (ps : List Piece) : List Piece := absorb (cutStarts ps)

theorem render_absorb (ps : List Piece) : render (absorb ps) = render ps := by
  induction ps with
  | nil =>
      rfl
  | cons p ps ih =>
      change render (absorbed p (absorb ps)) = p.text ++ render ps
      rw [← ih]
      cases p with
      | line body =>
          have hcut := List.takeWhile_append_dropWhile (p := Piece.inlineBlank) (l := absorb ps)
          conv_rhs => rw [← hcut, render_append]
          change '/' :: '/' :: ((body ++ _) ++ _) = '/' :: '/' :: (body ++ _)
          rw [List.append_assoc]
          rfl
      | _ =>
          rfl

theorem exists_inlineBlanks (ps : List Piece) :
    ∃ blanks : List Char, (∀ c ∈ blanks, isBlank c ∧ c ≠ '\n') ∧
      ps.takeWhile Piece.inlineBlank = blanks.map .char := by
  induction ps with
  | nil =>
      exact ⟨[], by simp, rfl⟩
  | cons p ps ih =>
      rw [List.takeWhile_cons]
      split
      · rename_i hblank
        rcases ih with ⟨blanks, hall, heq⟩
        cases p with
        | char c =>
            rw [Piece.inlineBlank, Bool.and_eq_true, decide_eq_true_eq] at hblank
            refine ⟨c :: blanks, ?_, by rw [heq]; rfl⟩
            intro d hd
            rcases List.mem_cons.1 hd with rfl | hd
            · exact hblank
            · exact hall d hd
        | literal txt =>
            cases hblank
        | line body =>
            cases hblank
        | block body =>
            cases hblank
      · exact ⟨[], by simp, rfl⟩

theorem render_chars (txt : List Char) : render (txt.map .char) = txt := by
  induction txt with
  | nil =>
      rfl
  | cons c txt ih =>
      exact congrArg (c :: ·) ih

/-- Blanks behind a comment make no mark. -/
theorem no_mark_blanks {a b : Char} {txt blanks : List Char} (hb : isBlank b = false)
    (hblanks : ∀ c ∈ blanks, isBlank c) (h : ¬ [a, b] <:+: txt) : ¬ [a, b] <:+: txt ++ blanks := by
  induction blanks using List.reverseRecOn with
  | nil =>
      rwa [List.append_nil]
  | append_singleton blanks c ih =>
      rw [← List.append_assoc, List.infix_concat_iff, not_or]
      refine ⟨?_, ih fun d hd => hblanks d (List.mem_append_left _ hd)⟩
      rintro ⟨before, heq⟩
      have hlast := congrArg List.getLast? heq
      rw [List.getLast?_append, List.getLast?_concat] at hlast
      have hc : b = c := Option.some.inj hlast
      rw [hc, hblanks c (List.mem_append_right _ List.mem_cons_self)] at hb
      cases hb

theorem marks_absorb {ps : List Piece} (hmarks : ∀ p ∈ ps, p.MarkFree) :
    ∀ p ∈ absorb ps, p.MarkFree := by
  induction ps with
  | nil =>
      exact hmarks
  | cons p ps ih =>
      have hrest := ih fun q hq => hmarks q (List.mem_cons_of_mem _ hq)
      have hp := hmarks p List.mem_cons_self
      intro q hq
      change q ∈ absorbed p (absorb ps) at hq
      cases p with
      | line body =>
          rcases List.mem_cons.1 hq with rfl | hq
          · rcases exists_inlineBlanks (absorb ps) with ⟨blanks, hblanks, heq⟩
            have hall : ∀ c ∈ blanks, isBlank c := fun c hc => (hblanks c hc).1
            rw [heq, render_chars]
            exact ⟨no_mark_blanks (by decide) hall hp.1, no_mark_blanks (by decide) hall hp.2.1,
              no_mark_blanks (by decide) hall hp.2.2⟩
          · exact hrest q ((List.dropWhile_suffix _).subset hq)
      | _ =>
          rcases List.mem_cons.1 hq with rfl | hq
          · exact hp
          · exact hrest q hq

theorem reads_chars {blanks : List Char} {ps : List Piece} (hblanks : ∀ c ∈ blanks, isBlank c)
    (hreads : Reads ps) : Reads (blanks.map .char ++ ps) := by
  induction blanks with
  | nil =>
      exact hreads
  | cons c blanks ih =>
      have hc := hblanks c List.mem_cons_self
      refine .char ?_ ?_ (ih fun d hd => hblanks d (List.mem_cons_of_mem _ hd))
      · by_contra hquote
        rw [Bool.not_eq_false, isQuote, Bool.or_eq_true, decide_eq_true_eq, decide_eq_true_eq] at hquote
        rcases hquote with rfl | rfl <;> exact absurd hc (by decide)
      · rintro rfl
        exact absurd hc (by decide)

theorem tokens_trailing {before blanks after : List Char} (hblanks : ∀ c ∈ blanks, isBlank c)
    (hafter : ∀ c ∈ after.head?, isBlank c) :
    tokens (before ++ (blanks ++ after)) = tokens (before ++ after) := by
  cases blanks with
  | nil =>
      rfl
  | cons b blanks =>
      have hblank := @tokens_blanks before after blanks b (hblanks b List.mem_cons_self)
        fun c hc => hblanks c (List.mem_cons_of_mem _ hc)
      rw [List.cons_append, hblank]
      cases after with
      | nil =>
          rw [List.append_nil]
          exact List.append_nil _
      | cons c after =>
          have hc := hafter c rfl
          have hline := @tokens_blank [] after c hc
          rw [tokens_blank hc]
          exact congrArg (tokens before ++ ·) hline

/-- The blanks that a line comment takes in are no tokens. -/
theorem tokens_absorb {ps : List Piece} (hreads : Reads (absorb ps)) (before : List Char) :
    tokens (before ++ strip (absorb ps)) = tokens (before ++ strip ps) := by
  induction ps generalizing before with
  | nil =>
      rfl
  | cons p ps ih =>
      change Reads (absorbed p (absorb ps)) at hreads
      change tokens (before ++ strip (absorbed p (absorb ps))) = tokens (before ++ (p.code ++ strip ps))
      cases p with
      | line body =>
          rcases exists_inlineBlanks (absorb ps) with ⟨blanks, hblanks, heq⟩
          have hall : ∀ c ∈ blanks, isBlank c := fun c hc => (hblanks c hc).1
          have hcut := List.takeWhile_append_dropWhile (p := Piece.inlineBlank) (l := absorb ps)
          rw [heq] at hcut
          cases hreads with
          | line _ hnext hreads =>
              have hrest := ih (hcut ▸ reads_chars hall hreads) before
              rw [← hcut, strip_append, strip_blanks] at hrest
              change tokens (before ++ strip ((absorb ps).dropWhile Piece.inlineBlank)) =
                tokens (before ++ strip ps)
              rw [← hrest, tokens_trailing hall]
              intro c hc
              cases hafter : (absorb ps).dropWhile Piece.inlineBlank with
              | nil =>
                  rw [hafter] at hc
                  cases hc
              | cons q rest =>
                  rw [hafter] at hc hnext
                  rw [hnext q rfl] at hc
                  cases hc
                  decide
      | char c =>
          have hrest := ih hreads.tail (before ++ [c])
          rw [List.append_assoc, List.append_assoc] at hrest
          exact hrest
      | literal txt =>
          have hrest := ih hreads.tail (before ++ txt)
          rw [List.append_assoc, List.append_assoc] at hrest
          exact hrest
      | block body =>
          exact ih hreads.tail before

theorem marks_cutStarts {ps : List Piece} (hmarks : ∀ p ∈ ps, p.MarkFree) :
    ∀ p ∈ cutStarts ps, p.MarkFree := by
  induction ps using starts_induction blockAhead_suffix with
  | nil =>
      exact hmarks
  | here front rest hsome ih =>
      rw [cutStarts_start hsome]
      exact ih fun q hq => hmarks q (List.mem_cons_of_mem _ (List.mem_append_right _ hq))
  | cons p ps hstart ih =>
      rw [cutStarts_cons hstart]
      intro q hq
      rcases List.mem_cons.1 hq with rfl | hq
      · exact hmarks q List.mem_cons_self
      · exact ih (fun q hq => hmarks q (List.mem_cons_of_mem _ hq)) q hq

/-! ## When the strippers agree -/

/-- Both ways to remove the comments leave the same tokens, and what `removeLineStartComments` leaves
is read with the tokens of the code: none of it has become a comment. -/
def StrippersAgree (c : CText) : Prop :=
  ∃ starts both all, removeLineStartComments c.text = .ok starts ∧
    removeAllLineComments starts = .ok both ∧ removeAllLineComments c.text = .ok all ∧
    tokens both = tokens all ∧
    ∃ d : CText, d.text = starts ∧ tokens (strip d.pieces) = tokens (strip c.pieces)

theorem removeLineStartComments_keeps {c : PlainCText} (hreads : Reads (joined c.pieces)) :
    ∃ starts, removeLineStartComments c.text = .ok starts ∧
      ∃ ps, Keeps (tokens (segments c.pieces).flatten) starts ps := by
  have hjoined : render (cutStarts c.pieces) = render (joined c.pieces) :=
    (render_absorb _).symm
  have hmarks : ∀ p ∈ joined c.pieces, p.MarkFree := marks_absorb (marks_cutStarts c.marks)
  have htokens : tokens (strip (joined c.pieces)) = tokens (segments c.pieces).flatten := by
    rw [flatten_segments]
    exact tokens_absorb hreads []
  have hfirst : Keeps (tokens (segments c.pieces).flatten)
      (render ((blockAhead (joined c.pieces)).getD (joined c.pieces)))
      ((blockAhead (joined c.pieces)).getD (joined c.pieces)) := by
    cases hsome : blockAhead (joined c.pieces) with
    | none =>
        exact ⟨rfl, hreads, hmarks, htokens⟩
    | some rest =>
        have hsuffix := blockAhead_suffix hsome
        exact ⟨rfl, hreads.suffix hsuffix, fun p hp => hmarks p (hsuffix.subset hp),
          (tokens_blockAhead hsome).trans htokens⟩
  rcases lineLoop_keeps ⟨_, hfirst⟩ with ⟨txt, hline, hkeeps⟩
  rcases textLoop_keeps hkeeps with ⟨starts, htext, hkeeps'⟩
  refine ⟨starts, ?_, hkeeps'⟩
  have hblocks := gsub_lineStartBlock c.reads c.marks
  rw [hjoined] at hblocks
  simp only [removeLineStartComments, CText.text, hblocks, gsub_textStartBlock hreads hmarks, hline,
    bind, Except.bind]
  exact htext

/-- A field, a line comment, a block comment on the next line, and another field. -/
def commentedLines : PlainCText where
  pieces := chars "int a; " ++ .line " b".toList :: chars "\n" ++ .block " c ".toList ::
    chars "\nint d;"
  reads := reads_of_check (by decide +kernel)
  marks := by decide +kernel

/-- A name on the line of the block comment. -/
def swallowedName : PlainCText where
  pieces := chars "a " ++ .line " c".toList :: chars "\n" ++ .block " d ".toList :: chars " b;"
  reads := reads_of_check (by decide +kernel)
  marks := by decide +kernel

/-- The token that is made where a comment and its line break are taken out. -/
example : removeLineStartComments "int\n/* c */x;".toList = .ok "intx;".toList := by
  decide +kernel

end FfiDef
end LuajitTcpServer
