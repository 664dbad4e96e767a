import LuajitTcpServer.Json.Decoding
import LuajitTcpServer.Json.Quoting

/-!
# Reading — `decode` reads every text of JSON

A text of a tree is read wherever it stands, up to its last character, and the value that is read
is one of the tree (`Decoded`, `decode_text`).
-/

namespace LuajitTcpServer
namespace Json

open Lua Loops JsonText

/-! ## Blanks -/

/-- A text that starts with a character that is no blank and no byte order mark. -/
def Solid (rest : List Char) : Prop :=
  ∃ c more, rest = c :: more ∧ isBlank c = false ∧ c ≠ '\xef'

/-- What may follow a numeral or a name. -/
def Stops (rest : List Char) : Prop :=
  ∀ c ∈ rest.head?, c.isAlphanum = false ∧ c ≠ '.' ∧ c ≠ '+' ∧ c ≠ '-'

section Scan

variable {str rest w : List Char} {pos : Nat}

theorem scanwhite_white (hw : White w) (hrest : Solid rest) (hat : At str pos (w ++ rest)) :
    scanwhite str pos = .ok (some (pos + w.length)) := by
  rcases hrest with ⟨c, more, rfl, hblank, hbom⟩
  have hholds : ∀ d, (Single.cls 'S').holds d = !isBlank d := fun d => rfl
  have hskip : ∀ d ∈ w, (Single.cls 'S').holds d = false := by
    intro d hd
    have hwhite : d = ' ' ∨ d = '\t' ∨ d = '\n' ∨ d = '\r' := by
      simpa [isWhite, or_assoc] using hw d hd
    rcases hwhite with rfl | rfl | rfl | rfl <;> decide
  have hidx : (w ++ c :: more).findIdx? (Single.cls 'S').holds = some w.length := by
    rw [List.findIdx?_append, List.findIdx?_eq_none_iff.2 hskip, List.findIdx?_cons, hholds, hblank]
    simp
  have hfind : find str nonBlank pos false = .ok (some (pos + w.length, pos + w.length)) := by
    rw [hat.find_one (by decide) (by decide) (show parse nonBlank = [.one (.cls 'S')] by decide), hidx]
    rfl
  have hmark : sub str (pos + w.length : Nat) (pos + w.length + 2 : Nat) ≠ bom := by
    have hthere := hat.advance
    have hsub := hthere.sub_eq 3
    have hpos := hthere.pos_pos
    rw [show pos + w.length - 1 + 3 = pos + w.length + 2 by omega] at hsub
    rw [hsub, List.take_succ_cons, bom]
    exact fun h => hbom (List.cons_eq_cons.1 h).1
  -- what is found is no byte order mark, so there is no second round
  refine Loop.run_done _ ?_
  change scanwhiteRound str (some pos) = _
  rw [scanwhiteRound, hfind]
  exact if_neg hmark

end Scan

/-! ## Numerals -/

def digitsPoint : Single := .set false [.cls 'd', .cls '.']

def exponentMark : Single := .set false [.char 'e', .char 'E']

def signMark : Single := .set false [.cls '+', .cls '-']

def numberItems : List Item :=
  [.optional (.cls '-'), .plus digitsPoint, .optional exponentMark, .optional signMark,
    .star (.cls 'd')]

theorem numberPattern_anchor :
    anchor numberPattern = (true, numberPattern.tail) ∧ parse numberPattern.tail = numberItems := by
  decide +kernel

theorem holds_digitsPoint (c : Char) : digitsPoint.holds c = (c.isDigit || c = '.') := by
  have hdigit : matchClass 'd' c = c.isDigit := rfl
  have hpoint : matchClass '.' c = decide (c = '.') := rfl
  simp [digitsPoint, Single.holds, Member.holds, hdigit, hpoint]

theorem holds_signMark (c : Char) : signMark.holds c = (c = '+' || c = '-') := by
  have hplus : matchClass '+' c = decide (c = '+') := rfl
  have hminus : matchClass '-' c = decide (c = '-') := rfl
  simp [signMark, Single.holds, Member.holds, hplus, hminus]

theorem holds_exponentMark (c : Char) : exponentMark.holds c = (c = 'e' || c = 'E') := by
  simp [exponentMark, Single.holds, Member.holds, eq_comm]

theorem Stops.not_digit {rest : List Char} (h : Stops rest) :
    ∀ c ∈ rest.head?, c.isDigit = false := by
  intro c hc
  have halnum := (h c hc).1
  simp only [Char.isAlphanum, Bool.or_eq_false_iff] at halnum
  exact halnum.2

/-- The mark, the sign and the digits of an exponent are taken, and nothing behind them. -/
theorem greedy_exponent (n : Numeral) {rest : List Char} (hrest : Stops rest) :
    greedy [.optional exponentMark, .optional signMark, .star (.cls 'd')] (n.exponentText ++ rest) =
      some rest := by
  have hholds : (Single.cls 'd').holds = Char.isDigit := rfl
  rw [Numeral.exponentText]
  cases n.exponent with
  | none =>
      rw [Option.map_none, Option.getD_none, List.nil_append]
      cases rest with
      | nil =>
          rfl
      | cons c rest =>
          rcases hrest c rfl with ⟨halnum, -, hplus, hminus⟩
          have hmark : exponentMark.holds c = false := by
            rw [holds_exponentMark]
            have he : c ≠ 'e' ∧ c ≠ 'E' := by
              constructor <;> rintro rfl <;> exact absurd halnum (by decide)
            simp [he.1, he.2]
          have hsign : signMark.holds c = false := by
            rw [holds_signMark]
            simp [hplus, hminus]
          simp [greedy, hmark, hsign, hholds, hrest.not_digit c rfl]
  | some e =>
      have hmark : exponentMark.holds e.mark = true := by
        rcases e.mark_eq with h | h <;> rw [h] <;> decide
      have hdrop := (takeWhile_append_stop e.digit hrest.not_digit).2
      rw [Option.map_some, Option.getD_some, Exponent.text, List.cons_append, greedy, if_pos hmark,
        List.append_assoc]
      cases e.sign with
      | plus =>
          simp [Sign.text, greedy, holds_signMark, hholds, hdrop]
      | minus =>
          simp [Sign.text, greedy, holds_signMark, hholds, hdrop]
      | none =>
          rcases List.exists_cons_of_ne_nil e.ne_nil with ⟨d, ds, hds⟩
          have hdigit := e.digit d (by rw [hds]; exact List.mem_cons_self)
          rcases digit_ne hdigit with ⟨-, hminus, hplus, -⟩
          have hsign : signMark.holds d = false := by
            rw [holds_signMark]
            simp [hplus, hminus]
          rw [Sign.text, List.nil_append]
          rw [hds, List.cons_append] at hdrop ⊢
          rw [greedy, hsign]
          simp [greedy, hholds, hdrop]

/-- The pattern takes a numeral as it stands. -/
theorem greedy_number (n : Numeral) {rest : List Char} (hrest : Stops rest) :
    greedy numberItems (n.text ++ rest) = some rest := by
  have hexponent : ∀ c ∈ (n.exponentText ++ rest).head?, digitsPoint.holds c = false := by
    intro c hc
    rw [holds_digitsPoint]
    cases htext : n.exponentText with
    | nil =>
        rw [htext, List.nil_append] at hc
        simp [hrest.not_digit c hc, (hrest c hc).2.1]
    | cons d txt =>
        rw [htext] at hc
        have hhead := exponentText_head n c (by rw [htext]; exact hc)
        simp [hhead.2.1, hhead.2.2]
  -- the point is taken with the digits on both sides of it
  have hdigits : ∀ c ∈ n.whole ++ n.fractionText, digitsPoint.holds c := by
    intro c hc
    rw [holds_digitsPoint]
    rcases List.mem_append.1 hc with hc | hc
    · simp [n.whole_digit c hc]
    · rw [Numeral.fractionText] at hc
      split_ifs at hc
      · cases hc
      · rcases List.mem_cons.1 hc with rfl | hc
        · rfl
        · simp [n.fraction_digit c hc]
  rcases whole_head n with ⟨c, tail, hwhole, hdigit⟩
  rcases digit_ne hdigit with ⟨-, hminus, -, -⟩
  have hsign : (Single.cls '-').holds c = false := decide_eq_false hminus
  have hfirst : digitsPoint.holds c = true := hdigits c (by rw [hwhole]; simp)
  have hdrop : (tail ++ (n.fractionText ++ (n.exponentText ++ rest))).dropWhile digitsPoint.holds =
      n.exponentText ++ rest := by
    have hstop := (takeWhile_append_stop hdigits hexponent).2
    rw [hwhole, List.cons_append, List.cons_append, List.dropWhile_cons_of_pos hfirst,
      List.append_assoc] at hstop
    exact hstop
  have hplus : greedy (.plus digitsPoint :: [.optional exponentMark, .optional signMark,
      .star (.cls 'd')]) (c :: (tail ++ (n.fractionText ++ (n.exponentText ++ rest)))) =
      some rest := by
    rw [greedy, if_pos hfirst, hdrop]
    exact greedy_exponent n hrest
  rw [Numeral.text, hwhole, numberItems]
  simp only [List.append_assoc, List.cons_append]
  cases n.negative with
  | true =>
      exact hplus
  | false =>
      rw [if_neg Bool.false_ne_true, List.nil_append, greedy, hsign]
      exact hplus

/-! ## Words -/

section Word

variable {doubles : Doubles} {nullval : Val} {str rest : List Char} {pos : Nat}

theorem sub_taken {piece : List Char} (hat : At str pos (piece ++ rest)) :
    sub str pos ((str.length - rest.length : Nat) : Int) = piece ∧
      str.length - rest.length + 1 = pos + piece.length := by
  have hpos := hat.pos_pos
  have hlength := hat.length_eq
  rw [List.length_append] at hlength
  have hsub := hat.sub_eq piece.length
  rw [List.take_left, show pos - 1 + piece.length = str.length - rest.length by omega] at hsub
  exact ⟨hsub, by omega⟩

theorem scanNumber_text (n : Numeral) (hrest : Stops rest) (hat : At str pos (n.text ++ rest)) :
    scanNumber doubles str pos =
      .ok (some (.num (doubles.nearest n.value), pos + n.text.length)) := by
  have hgreedy : greedy (parse numberPattern.tail) (n.text ++ rest) = some rest := by
    rw [numberPattern_anchor.2]
    exact greedy_number n hrest
  rcases sub_taken hat with ⟨hsub, hend⟩
  rw [scanNumber, hat.find_greedy (by decide) numberPattern_anchor.1 hgreedy]
  change Except.ok (((tonumber (sub str pos ((str.length - rest.length : Nat) : Int))).map
    fun q => (Val.num (doubles.nearest q), str.length - rest.length + 1))) = _
  rw [hsub, hend, n.tonumber_text]
  rfl

/-- A letter starts no numeral. -/
theorem scanNumber_letter {c : Char} {more : List Char} (hc : c.isAlpha = true)
    (hat : At str pos (c :: more)) : scanNumber doubles str pos = .ok none := by
  have hdigit : c.isDigit = false ∧ c ≠ '.' ∧ c ≠ '-' := by
    refine ⟨?_, ?_, ?_⟩
    · cases hdigit : c.isDigit with
      | false =>
          rfl
      | true =>
          have hletter : ∀ d < 10, (Nat.digitChar d).isAlpha = false := by decide
          rcases exists_digitChar hdigit with ⟨d, hd, rfl⟩
          rw [hletter d hd] at hc
          cases hc
    · rintro rfl
      exact absurd hc (by decide)
    · rintro rfl
      exact absurd hc (by decide)
  have hsign : (Single.cls '-').holds c = false := decide_eq_false hdigit.2.2
  have hpoint : digitsPoint.holds c = false := by
    rw [holds_digitsPoint]
    simp [hdigit.1, hdigit.2.1]
  -- the match fails at the first digit, whether or not a sign is taken
  have hmatch : matchItems (parse numberPattern.tail) ((str.take (pos - 1)).getLastD '\x00')
      (c :: more) [] = .ok none := by
    rw [numberPattern_anchor.2, numberItems, matchItems, hsign, if_neg Bool.false_ne_true, matchItems,
      hpoint, if_neg Bool.false_ne_true]
  rw [scanNumber, hat.find_front (by decide) numberPattern_anchor.1 hmatch (by simp)]
  rfl

theorem namePattern_anchor : anchor namePattern = (true, namePattern.tail) ∧
    parse namePattern.tail = [.one (.cls 'a'), .star (.cls 'w')] := by
  decide +kernel

theorem scanName_text {c : Char} {tail : List Char} {v : Val} (hc : c.isAlpha = true)
    (htail : ∀ d ∈ tail, d.isAlphanum = true) (hname : nameValue nullval (c :: tail) = some v)
    (hrest : Stops rest) (hat : At str pos ((c :: tail) ++ rest)) :
    scanName nullval str pos = .ok (some (v, pos + (c :: tail).length)) := by
  have hgreedy : greedy (parse namePattern.tail) ((c :: tail) ++ rest) = some rest := by
    have hletter : (Single.cls 'a').holds c = true := hc
    have hholds : (Single.cls 'w').holds = Char.isAlphanum := rfl
    have hstop := (takeWhile_append_stop htail fun d hd => (hrest d hd).1).2
    rw [namePattern_anchor.2, List.cons_append, greedy, if_pos hletter, greedy, hholds, hstop]
    rfl
  rcases sub_taken hat with ⟨hsub, hend⟩
  rw [scanName, hat.find_greedy (by decide) namePattern_anchor.1 hgreedy]
  change Except.ok ((nameValue nullval (sub str pos ((str.length - rest.length : Nat) : Int))).map
    fun v => (v, str.length - rest.length + 1)) = _
  rw [hsub, hend, hname]
  rfl

theorem scanWord_number (n : Numeral) (hrest : Stops rest) (hat : At str pos (n.text ++ rest))
    (heap : Heap) : scanWord doubles nullval str heap pos =
      .ok (heap, .num (doubles.nearest n.value), pos + n.text.length) := by
  rw [scanWord, scanNumber_text n hrest hat]
  rfl

theorem scanWord_name {c : Char} {tail : List Char} {v : Val} (hc : c.isAlpha = true)
    (htail : ∀ d ∈ tail, d.isAlphanum = true) (hname : nameValue nullval (c :: tail) = some v)
    (hrest : Stops rest) (hat : At str pos ((c :: tail) ++ rest)) (heap : Heap) :
    scanWord doubles nullval str heap pos = .ok (heap, v, pos + (c :: tail).length) := by
  rw [scanWord, scanNumber_letter hc hat]
  change (scanName nullval str pos >>= _) = _
  rw [scanName_text hc htail hname hrest hat]
  rfl

end Word

/-! ## The tables that are built -/

/-- The values are put behind the `n` elements of an array. -/
def pushAll : LuaTable → Nat → List Val → LuaTable
  | tbl, _, [] => tbl
  | tbl, n, v :: vs => pushAll (tbl.set (.num (n + 1 : Nat)) v (Val.num_ne_nil _)) (n + 1) vs

def putAll : LuaTable → List (List Char × Val) → LuaTable
  | tbl, [] => tbl
  | tbl, (key, v) :: pairs => putAll (tbl.set (.str key) v (Val.str_ne_nil _)) pairs

/-- The table of an array. -/
structure IsArray (metatable : Option Meta) (vs : List Val) (tbl : LuaTable) : Prop where
  metatable_eq : tbl.metatable = metatable
  element : ∀ i (hi : i < vs.length), tbl.get (.num (i + 1 : Nat)) = vs[i]
  other : ∀ k, (∀ i < vs.length, k ≠ .num (i + 1 : Nat)) → tbl.get k = .nil

/-- The table of an object: of the pairs with one key the last one counts. -/
structure IsObject (metatable : Option Meta) (keys : List (List Char)) (vs : List Val)
    (tbl : LuaTable) : Prop where
  metatable_eq : tbl.metatable = metatable
  last : ∀ i (hi : i < keys.length) (hi' : i < vs.length), keys[i] ∉ keys.drop (i + 1) →
    tbl.get (.str keys[i]) = vs[i]
  other : ∀ k, (∀ key ∈ keys, k ≠ .str key) → tbl.get k = .nil

section Built

@[simp] theorem metatable_pushAll (vs : List Val) (tbl : LuaTable) (n : Nat) :
    (pushAll tbl n vs).metatable = tbl.metatable := by
  induction vs generalizing tbl n with
  | nil =>
      rfl
  | cons v vs ih =>
      rw [pushAll, ih, LuaTable.metatable_set]

theorem pushAll_other {vs : List Val} {n : Nat} {k : Val} (tbl : LuaTable)
    (hk : ∀ i < vs.length, k ≠ .num (n + i + 1 : Nat)) : (pushAll tbl n vs).get k = tbl.get k := by
  induction vs generalizing tbl n with
  | nil =>
      rfl
  | cons v vs ih =>
      have hrest : ∀ i < vs.length, k ≠ .num (n + 1 + i + 1 : Nat) := by
        intro i hi
        rw [show n + 1 + i + 1 = n + (i + 1) + 1 by omega]
        exact hk (i + 1) (Nat.succ_lt_succ hi)
      rw [pushAll, ih _ hrest, LuaTable.get_set, if_neg (hk 0 (Nat.succ_pos _))]

theorem pushAll_element {vs : List Val} {i : Nat} (tbl : LuaTable) (n : Nat) (hi : i < vs.length) :
    (pushAll tbl n vs).get (.num (n + i + 1 : Nat)) = vs[i] := by
  induction vs generalizing tbl n i with
  | nil =>
      cases hi
  | cons v vs ih =>
      rw [pushAll]
      cases i with
      | zero =>
          rw [pushAll_other, LuaTable.get_set, if_pos rfl]
          · rfl
          · intro j _ h
            have hnat : n + 0 + 1 = n + 1 + j + 1 := by exact_mod_cast Val.num.inj h
            omega
      | succ i =>
          rw [show n + (i + 1) + 1 = n + 1 + i + 1 by omega]
          exact ih _ _ (Nat.lt_of_succ_lt_succ hi)

theorem isArray_pushAll (metatable : Option Meta) (vs : List Val) :
    IsArray metatable vs (pushAll (LuaTable.empty metatable) 0 vs) where
  metatable_eq := metatable_pushAll vs _ 0
  element i hi := by
    have h := pushAll_element (LuaTable.empty metatable) 0 hi
    rwa [Nat.zero_add] at h
  other k hk := by
    refine pushAll_other _ fun i hi => ?_
    rw [Nat.zero_add]
    exact hk i hi

@[simp] theorem metatable_putAll (pairs : List (List Char × Val)) (tbl : LuaTable) :
    (putAll tbl pairs).metatable = tbl.metatable := by
  induction pairs generalizing tbl with
  | nil =>
      rfl
  | cons pair pairs ih =>
      rw [putAll, ih, LuaTable.metatable_set]

theorem putAll_other {pairs : List (List Char × Val)} {k : Val} (tbl : LuaTable)
    (hk : ∀ pair ∈ pairs, k ≠ .str pair.1) : (putAll tbl pairs).get k = tbl.get k := by
  induction pairs generalizing tbl with
  | nil =>
      rfl
  | cons pair pairs ih =>
      rw [putAll, ih _ fun pair h => hk pair (List.mem_cons_of_mem _ h), LuaTable.get_set,
        if_neg (hk pair List.mem_cons_self)]

theorem putAll_last {keys : List (List Char)} {vs : List Val} {i : Nat} (tbl : LuaTable)
    (hi : i < keys.length) (hi' : i < vs.length) (hlast : keys[i] ∉ keys.drop (i + 1)) :
    (putAll tbl (keys.zip vs)).get (.str keys[i]) = vs[i] := by
  induction keys generalizing tbl vs i with
  | nil =>
      cases hi
  | cons key keys ih =>
      cases vs with
      | nil =>
          cases hi'
      | cons v vs =>
          rw [List.zip_cons_cons, putAll]
          cases i with
          | zero =>
              rw [putAll_other, LuaTable.get_set]
              · exact if_pos rfl
              · intro pair hpair h
                exact hlast (by
                  rw [show (key :: keys)[0] = pair.1 from Val.str.inj h]
                  exact (List.of_mem_zip hpair).1)
          | succ i =>
              exact ih _ (Nat.lt_of_succ_lt_succ hi) (Nat.lt_of_succ_lt_succ hi') hlast

theorem isObject_putAll (metatable : Option Meta) (keys : List (List Char)) (vs : List Val) :
    IsObject metatable keys vs (putAll (LuaTable.empty metatable) (keys.zip vs)) where
  metatable_eq := metatable_putAll _ _
  last _ hi hi' hlast := putAll_last _ hi hi' hlast
  other _ hk := putAll_other _ fun _ hpair => hk _ (List.of_mem_zip hpair).1

end Built

/-! ## The value of a tree -/

section Reads

variable (doubles : Doubles) (nullval : Val) (metaOf : Kind → Option Meta) (heap : Heap)

/-- A value that is read for a tree. -/
inductive Decoded : Val → Tree → Prop
  | null : Decoded nullval .null
  | bool (b : Bool) : Decoded (.bool b) (.bool b)
  | num (q : ℚ) : Decoded (.num (doubles.nearest q)) (.num q)
  | str (txt : List Char) : Decoded (.str txt) (.str txt)
  | arr {address : Nat} {items : List Tree} {vs : List Val} {tbl : LuaTable}
      (hcount : vs.length = items.length)
      (h : ∀ i (hi : i < items.length), Decoded vs[i] items[i])
      (htable : heap[address]? = some tbl) (harray : IsArray (metaOf .array) vs tbl) :
      Decoded (.table address) (.arr items)
  | obj {address : Nat} {pairs : List (List Char × Tree)} {vs : List Val} {tbl : LuaTable}
      (hcount : vs.length = pairs.length)
      (h : ∀ i (hi : i < pairs.length), Decoded vs[i] pairs[i].2)
      (htable : heap[address]? = some tbl)
      (hobject : IsObject (metaOf .object) (pairs.map Prod.fst) vs tbl) :
      Decoded (.table address) (.obj pairs)

end Reads

section Read

variable {doubles : Doubles} {nullval : Val} {metaOf : Kind → Option Meta} {str : List Char}

/-- Tables that are read later change nothing. -/
theorem Decoded.append {heap : Heap} {v : Val} {t : Tree}
    (h : Decoded doubles nullval metaOf heap v t) (added : Heap) :
    Decoded doubles nullval metaOf (heap ++ added) v t := by
  have hmore : ∀ {address : Nat} {tbl : LuaTable}, heap[address]? = some tbl →
      (heap ++ added)[address]? = some tbl := by
    intro address tbl hget
    rw [List.getElem?_append_left (List.getElem?_eq_some_iff.1 hget).1, hget]
  induction h with
  | null =>
      exact Decoded.null
  | bool b =>
      exact Decoded.bool b
  | num q =>
      exact Decoded.num q
  | str txt =>
      exact Decoded.str txt
  | arr hcount h htable harray ih =>
      exact Decoded.arr hcount ih (hmore htable) harray
  | obj hcount h htable hobject ih =>
      exact Decoded.obj hcount ih (hmore htable) hobject

theorem nextInTable_white {kind : Kind} {startpos pos : Nat} {w rest : List Char} (hw : White w)
    (hrest : Solid rest) (hat : At str pos (w ++ rest)) :
    nextInTable str kind startpos pos = .ok (pos + w.length) := by
  rw [nextInTable, scanwhite_white hw hrest hat]
  rfl

/-- Blanks in front of a value are passed over. -/
theorem scanvalue_white {depth pos : Nat} {heap : Heap} {w rest : List Char} (hw : White w)
    (hrest : Solid rest) (hat : At str pos (w ++ rest)) :
    scanvalue doubles nullval metaOf str depth heap pos =
      scanvalue doubles nullval metaOf str depth heap (pos + w.length) := by
  cases depth with
  | zero =>
      rfl
  | succ depth =>
      rw [scanvalue, scanvalue, scanwhite_white hw hrest hat, scanwhite_white white_nil hrest hat.advance]
      rfl

theorem scanvalue_eq {depth pos : Nat} {heap : Heap} {more : List Char} {c : Char}
    (hblank : isBlank c = false) (hbom : c ≠ '\xef') (hat : At str pos (c :: more)) :
    scanvalue doubles nullval metaOf str (depth + 1) heap pos =
      if c = '{' then
        scantable metaOf str (scanvalue doubles nullval metaOf str depth) .object pos heap
      else if c = '[' then
        scantable metaOf str (scanvalue doubles nullval metaOf str depth) .array pos heap
      else if c = '"' then
        (scanstring str pos).map fun scanned => (heap, .str scanned.1, scanned.2)
      else scanWord doubles nullval str heap pos := by
  have hsingle : ∀ d : Char, ([c] = [d]) = (c = d) := fun d => by simp
  have hchar := hat.sub_here
  rw [scanvalue, scanwhite_white white_nil ⟨c, more, rfl, hblank, hbom⟩ hat]
  change (if sub str pos pos = ['{'] then _ else if sub str pos pos = ['['] then _ else
    if sub str pos pos = ['"'] then _ else _) = _
  simp only [hchar, hsingle]
  split_ifs
  · rfl
  · rfl
  · cases scanstring str pos <;> rfl
  · rfl

/-- How a text may start. -/
structure Starts (txt : List Char) (c : Char) (more : List Char) : Prop where
  eq : txt = c :: more
  blank : isBlank c = false
  bom : c ≠ '\xef'
  bracket : c ≠ ']'
  brace : c ≠ '}'

theorem numeral_start (n : Numeral) : ∃ c more, Starts n.text c more ∧ c ≠ '{' ∧ c ≠ '[' ∧
    c ≠ '"' := by
  rcases whole_head n with ⟨c, tail, hwhole, hdigit⟩
  rw [Numeral.text, hwhole]
  cases n.negative with
  | true =>
      exact ⟨'-', _, ⟨rfl, by decide, by decide, by decide, by decide⟩, by decide⟩
  | false =>
      have hdigits : ∀ d < 10, isBlank (Nat.digitChar d) = false ∧ Nat.digitChar d ≠ '\xef' ∧
          Nat.digitChar d ≠ ']' ∧ Nat.digitChar d ≠ '}' ∧ Nat.digitChar d ≠ '{' ∧
          Nat.digitChar d ≠ '[' ∧ Nat.digitChar d ≠ '"' := by
        decide
      rcases exists_digitChar hdigit with ⟨d, hd, rfl⟩
      rcases hdigits d hd with ⟨hblank, hbom, hbracket, hbrace, hother⟩
      exact ⟨_, _, ⟨rfl, hblank, hbom, hbracket, hbrace⟩, hother⟩

theorem text_start {t : Tree} {txt : List Char} (h : Text t txt) : ∃ c more, Starts txt c more := by
  cases h with
  | null =>
      exact ⟨_, _, rfl, by decide, by decide, by decide, by decide⟩
  | bool b =>
      cases b with
      | true =>
          exact ⟨_, _, rfl, by decide, by decide, by decide, by decide⟩
      | false =>
          exact ⟨_, _, rfl, by decide, by decide, by decide, by decide⟩
  | num n =>
      rcases numeral_start n with ⟨c, more, hstart, -⟩
      exact ⟨c, more, hstart⟩
  | str h =>
      rcases h with ⟨body, -, rfl⟩
      exact ⟨_, _, rfl, by decide, by decide, by decide, by decide⟩
  | arr h =>
      exact ⟨_, _, rfl, by decide, by decide, by decide, by decide⟩
  | obj h =>
      exact ⟨_, _, rfl, by decide, by decide, by decide, by decide⟩

/-! ## Tables -/

/-- A comma or a closing bracket ends what stands in front of it. -/
def Ends (c : Char) : Prop := c = ',' ∨ c = ']' ∨ c = '}'

theorem Ends.plain {c : Char} (h : Ends c) : isBlank c = false ∧ c ≠ '\xef' ∧ c ≠ ':' := by
  rcases h with rfl | rfl | rfl <;> decide

theorem Ends.solid {c : Char} (h : Ends c) (more : List Char) : Solid (c :: more) :=
  ⟨c, more, rfl, h.plain.1, h.plain.2.1⟩

theorem Ends.stops {c : Char} (h : Ends c) {w : List Char} (hw : White w) (more : List Char) :
    Stops (w ++ c :: more) := by
  intro d hd
  cases w with
  | nil =>
      cases hd
      rcases h with rfl | rfl | rfl <;> decide
  | cons b w =>
      cases hd
      have hwhite : d = ' ' ∨ d = '\t' ∨ d = '\n' ∨ d = '\r' := by
        simpa [isWhite, or_assoc] using hw d List.mem_cons_self
      rcases hwhite with rfl | rfl | rfl | rfl <;> decide

theorem Starts.solid {txt more : List Char} {c : Char} (h : Starts txt c more) (rest : List Char) :
    Solid (txt ++ rest) :=
  ⟨c, more ++ rest, by rw [h.eq]; rfl, h.blank, h.bom⟩

theorem Starts.behind {txt more rest : List Char} {c : Char} (h : Starts txt c more) {pos : Nat}
    (hat : At str pos (txt ++ rest)) (kind : Kind) : sub str pos pos ≠ [kind.closechar] := by
  rw [h.eq, List.cons_append] at hat
  rw [hat.sub_here]
  cases kind with
  | object =>
      exact fun hchar => h.brace (List.cons_eq_cons.1 hchar).1
  | array =>
      exact fun hchar => h.bracket (List.cons_eq_cons.1 hchar).1

section Rounds

variable {scan : Heap → Nat → Except Failure Scanned} {kind : Kind} {startpos : Nat}

theorem scanRounds_close {s : TableScan} {w more : List Char} (hw : White w)
    (hat : At str s.pos (w ++ kind.closechar :: more)) (rounds : Nat) :
    scanRounds str scan kind startpos (rounds + 1) s =
      .ok { s with pos := s.pos + (w.length + 1) } := by
  have hsolid : Solid (kind.closechar :: more) := by
    cases kind <;> exact ⟨_, _, rfl, by decide, by decide⟩
  have hclose : sub str (s.pos + w.length : Nat) (s.pos + w.length : Nat) = [kind.closechar] :=
    hat.advance.sub_here
  rw [scanRounds, nextInTable_white hw hsolid hat]
  exact if_pos hclose

theorem behindComma_ends {c : Char} {more : List Char} {pos : Nat} (hat : At str pos (c :: more)) :
    behindComma str pos = if c = ',' then pos + 1 else pos := by
  rw [behindComma, hat.sub_here]
  simp

/-- A round that reads an element of an array. -/
theorem scanRounds_value {s : TableScan} {heap : Heap} {v : Val} {w txt w' more : List Char}
    {c : Char} (hw : White w) (hstart : ∃ d tail, Starts txt d tail) (hw' : White w') (hc : Ends c)
    (hat : At str s.pos (w ++ (txt ++ (w' ++ c :: more))))
    (hscan : scan s.heap (s.pos + w.length) = .ok (heap, v, s.pos + w.length + txt.length))
    (rounds : Nat) :
    scanRounds str scan kind startpos (rounds + 1) s =
      scanRounds str scan kind startpos rounds
        ⟨heap, s.tbl.set (.num (s.n + 1 : Nat)) v (Val.num_ne_nil _), s.n + 1,
          if c = ',' then s.pos + w.length + txt.length + w'.length + 1
          else s.pos + w.length + txt.length + w'.length⟩ := by
  rcases hstart with ⟨d, tail, hstart⟩
  have hvalue := hat.advance
  have hbehind := hvalue.advance
  have hend := hbehind.advance
  have hcolon : sub str (s.pos + w.length + txt.length + w'.length : Nat)
      (s.pos + w.length + txt.length + w'.length : Nat) ≠ [':'] := by
    rw [hend.sub_here]
    exact fun h => hc.plain.2.2 (List.cons_eq_cons.1 h).1
  have hrest : scanRest str scan kind startpos { s with heap := heap } v
      (s.pos + w.length + txt.length) =
      .ok ⟨heap, s.tbl.set (.num (s.n + 1 : Nat)) v (Val.num_ne_nil _), s.n + 1,
        behindComma str (s.pos + w.length + txt.length + w'.length)⟩ := by
    rw [scanRest, nextInTable_white hw' (hc.solid more) hbehind]
    exact if_neg hcolon
  rw [behindComma_ends hend] at hrest
  rw [scanRounds, nextInTable_white hw (hstart.solid _) hat]
  refine (if_neg (hstart.behind hvalue kind)).trans ?_
  rw [hscan]
  change (scanRest str scan kind startpos { s with heap := heap } v
    (s.pos + w.length + txt.length) >>= _) = _
  rw [hrest]
  rfl

/-- A round that reads a key and its value. -/
theorem scanRounds_pair {s : TableScan} {heap : Heap} {v : Val} {key : List Char}
    {w q w₁ w₂ txt w' more : List Char} {c : Char} (hw : White w) (hkey : StringText q key)
    (hw₁ : White w₁) (hw₂ : White w₂) (hstart : ∃ d tail, Starts txt d tail) (hw' : White w')
    (hc : Ends c)
    (hat : At str s.pos (w ++ (q ++ (w₁ ++ ':' :: (w₂ ++ (txt ++ (w' ++ c :: more)))))))
    (hscankey : scan s.heap (s.pos + w.length) =
      .ok (s.heap, .str key, s.pos + w.length + q.length))
    (hscan : scan s.heap (s.pos + w.length + q.length + w₁.length + 1 + w₂.length) =
      .ok (heap, v, s.pos + w.length + q.length + w₁.length + 1 + w₂.length + txt.length))
    (rounds : Nat) :
    scanRounds str scan kind startpos (rounds + 1) s =
      scanRounds str scan kind startpos rounds
        ⟨heap, s.tbl.set (.str key) v (Val.str_ne_nil _), s.n,
          if c = ',' then
            s.pos + w.length + q.length + w₁.length + 1 + w₂.length + txt.length + w'.length + 1
          else
            s.pos + w.length + q.length + w₁.length + 1 + w₂.length + txt.length + w'.length⟩ := by
  have hquote : ∃ tail, Starts q '"' tail := by
    rcases hkey with ⟨body, -, rfl⟩
    exact ⟨_, rfl, by decide, by decide, by decide, by decide⟩
  rcases hquote with ⟨tail, hquote⟩
  rcases hstart with ⟨d, tail', hstart⟩
  have hname := hat.advance
  have hcolon := hname.advance
  have hmark := hcolon.advance
  have hbehind := hmark.next
  have hvalue := hbehind.advance
  have hlast := hvalue.advance
  have hend := hlast.advance
  have hfound : sub str (s.pos + w.length + q.length + w₁.length : Nat)
      (s.pos + w.length + q.length + w₁.length : Nat) = [':'] := hmark.sub_here
  -- behind the key stands a colon, so the value comes from a second call of `scan`
  have hrest : scanRest str scan kind startpos s (.str key) (s.pos + w.length + q.length) =
      .ok ⟨heap, s.tbl.set (.str key) v (Val.str_ne_nil _), s.n,
        behindComma str (s.pos + w.length + q.length + w₁.length + 1 + w₂.length + txt.length +
          w'.length)⟩ := by
    rw [scanRest, nextInTable_white hw₁ ⟨':', _, rfl, by decide, by decide⟩ hcolon]
    refine (if_pos hfound).trans ?_
    refine (dif_neg (Val.str_ne_nil key)).trans ?_
    rw [nextInTable_white hw₂ (hstart.solid _) hbehind]
    change (scan s.heap _ >>= _) = _
    rw [hscan]
    change (nextInTable str kind startpos _ >>= _) = _
    rw [nextInTable_white hw' (hc.solid more) hlast]
    rfl
  rw [behindComma_ends hend] at hrest
  rw [scanRounds, nextInTable_white hw (hquote.solid _) hat]
  refine (if_neg (hquote.behind hname kind)).trans ?_
  rw [hscankey]
  change (scanRest str scan kind startpos s (.str key) (s.pos + w.length + q.length) >>= _) = _
  rw [hrest]
  rfl

end Rounds

/-! ## Texts -/

theorem text_length {t : Tree} {txt : List Char} (h : Text t txt) : 0 < txt.length := by
  rcases text_start h with ⟨c, more, hstart⟩
  rw [hstart.eq, List.length_cons]
  exact Nat.succ_pos _

theorem scanvalue_key {q key : List Char} (hkey : StringText q key) {rest : List Char} {pos : Nat}
    (hat : At str pos (q ++ rest)) (depth : Nat) (heap : Heap) :
    scanvalue doubles nullval metaOf str (depth + 1) heap pos =
      .ok (heap, .str key, pos + q.length) := by
  have hread := scanstring_text hkey hat
  rcases hkey with ⟨body, -, rfl⟩
  rw [scanvalue_eq (by decide) (by decide) hat, if_neg (by decide), if_neg (by decide), if_pos rfl,
    hread]
  rfl

theorem scantable_ok {scan : Heap → Nat → Except Failure Scanned} {kind : Kind} {startpos n last : Nat}
    {heap heap' : Heap} {tbl : LuaTable}
    (h : scanRounds str scan kind startpos (str.length + 1)
      ⟨heap, LuaTable.empty (metaOf kind), 0, startpos + 1⟩ = .ok ⟨heap', tbl, n, last⟩) :
    scantable metaOf str scan kind startpos heap =
      .ok (heap' ++ [tbl], .table heap'.length, last) := by
  rw [scantable, h]
  rfl

mutual

/-- A text is read up to its last character. -/
theorem scanvalue_text {t : Tree} {txt : List Char} (h : Text t txt) :
    ∀ {depth pos : Nat} {heap : Heap} {rest : List Char}, txt.length ≤ depth → Stops rest →
      At str pos (txt ++ rest) →
      ∃ added v, scanvalue doubles nullval metaOf str depth heap pos =
          .ok (heap ++ added, v, pos + txt.length) ∧
        Decoded doubles nullval metaOf (heap ++ added) v t := by
  intro depth pos heap rest hdepth hrest hat
  obtain ⟨depth, rfl⟩ : ∃ d, depth = d + 1 :=
    Nat.exists_eq_add_one.2 (Nat.lt_of_lt_of_le (text_length h) hdepth)
  cases h with
  | null =>
      refine ⟨[], nullval, ?_, Decoded.null⟩
      rw [List.append_nil, scanvalue_eq (by decide) (by decide) hat, if_neg (by decide),
        if_neg (by decide), if_neg (by decide)]
      exact scanWord_name (by decide) (by decide) rfl hrest hat heap
  | bool b =>
      refine ⟨[], .bool b, ?_, Decoded.bool b⟩
      rw [List.append_nil]
      cases b with
      | true =>
          rw [scanvalue_eq (by decide) (by decide) hat, if_neg (by decide), if_neg (by decide),
            if_neg (by decide)]
          exact scanWord_name (by decide) (by decide) rfl hrest hat heap
      | false =>
          rw [scanvalue_eq (by decide) (by decide) hat, if_neg (by decide), if_neg (by decide),
            if_neg (by decide)]
          exact scanWord_name (by decide) (by decide) rfl hrest hat heap
  | num n =>
      rcases numeral_start n with ⟨c, more, hstart, hbrace, hbracket, hquote⟩
      have hhere : At str pos (c :: (more ++ rest)) := by
        rw [hstart.eq] at hat
        exact hat
      refine ⟨[], .num (doubles.nearest n.value), ?_, Decoded.num n.value⟩
      rw [List.append_nil, scanvalue_eq hstart.blank hstart.bom hhere, if_neg hbrace,
        if_neg hbracket, if_neg hquote]
      exact scanWord_number n hrest hat heap
  | @str q v h =>
      refine ⟨[], .str v, ?_, Decoded.str v⟩
      rw [List.append_nil]
      exact scanvalue_key h hat depth heap
  | @arr items txt h =>
      rw [List.length_cons] at hdepth
      -- the bracket has used up one of the nested calls, and the elements have the others
      rcases scanRounds_items h (Nat.le_of_succ_le_succ hdepth)
        (Nat.le_succ_of_le hat.next.piece_le)
        (s := ⟨heap, LuaTable.empty (metaOf .array), 0, pos + 1⟩) hat.next with ⟨added, vs, hrun, hvs⟩
      refine ⟨added ++ [pushAll (LuaTable.empty (metaOf .array)) 0 vs], .table (heap ++ added).length,
        ?_, ?_⟩
      · rw [scanvalue_eq (by decide) (by decide) hat, if_neg (by decide), if_pos rfl,
          scantable_ok hrun, List.append_assoc, List.length_cons]
        congr 3
        exact Nat.add_right_comm pos 1 txt.length
      · -- the table stands behind those of its elements
        rw [← List.append_assoc]
        exact Decoded.arr hvs.length_eq
          (fun i hi => (hvs.get (hvs.length_eq ▸ hi) hi).append _) List.getElem?_concat_length
          (isArray_pushAll _ vs)
  | @obj pairs txt h =>
      rw [List.length_cons] at hdepth
      rcases scanRounds_pairs h (Nat.le_of_succ_le_succ hdepth)
        (Nat.le_succ_of_le hat.next.piece_le)
        (s := ⟨heap, LuaTable.empty (metaOf .object), 0, pos + 1⟩) hat.next
        with ⟨added, vs, hrun, hvs⟩
      refine ⟨added ++ [putAll (LuaTable.empty (metaOf .object)) ((pairs.map Prod.fst).zip vs)],
        .table (heap ++ added).length, ?_, ?_⟩
      · rw [scanvalue_eq (by decide) (by decide) hat, if_pos rfl, scantable_ok hrun,
          List.append_assoc, List.length_cons]
        congr 3
        exact Nat.add_right_comm pos 1 txt.length
      · rw [← List.append_assoc]
        exact Decoded.obj hvs.length_eq
          (fun i hi => (hvs.get (hvs.length_eq ▸ hi) hi).append _) List.getElem?_concat_length
          (isObject_putAll _ _ vs)

theorem scanRounds_items {items : List Tree} {txt : List Char} (h : Items items txt) :
    ∀ {depth rounds startpos : Nat} {s : TableScan} {rest : List Char}, txt.length ≤ depth →
      txt.length ≤ rounds → At str s.pos (txt ++ rest) →
      ∃ added vs, scanRounds str (scanvalue doubles nullval metaOf str depth) .array startpos
            rounds s =
          .ok ⟨s.heap ++ added, pushAll s.tbl s.n vs, s.n + vs.length, s.pos + txt.length⟩ ∧
        List.Forall₂ (Decoded doubles nullval metaOf (s.heap ++ added)) vs items := by
  intro depth rounds startpos s rest hdepth hrounds hat
  cases h with
  | @nil w hw =>
      rw [List.length_append, List.length_singleton] at hrounds
      obtain ⟨rounds, rfl⟩ : ∃ r, rounds = r + 1 := Nat.exists_eq_add_one.2 (by omega)
      rw [List.append_assoc] at hat
      refine ⟨[], [], ?_, List.Forall₂.nil⟩
      rw [scanRounds_close hw hat, List.append_nil, List.length_append, List.length_singleton]
      rfl
  | @last t w txt w' hw h hw' =>
      have hpos := text_length h
      simp only [List.length_append, List.length_singleton] at hdepth hrounds
      -- a round for the element and another one for the bracket
      obtain ⟨rounds, rfl⟩ : ∃ r, rounds = r + 1 + 1 := ⟨rounds - 2, by omega⟩
      simp only [List.append_assoc, List.cons_append, List.nil_append] at hat
      have hc : Ends ']' := Or.inr (Or.inl rfl)
      rcases scanvalue_text h (show txt.length ≤ depth by omega) (hc.stops hw' rest) hat.advance
        with ⟨added, v, hscan, hv⟩
      refine ⟨added, [v], ?_, List.Forall₂.cons hv List.Forall₂.nil⟩
      rw [scanRounds_value hw (text_start h) hw' hc hat hscan, if_neg (by decide),
        scanRounds_close (w := []) white_nil hat.advance.advance.advance]
      simp only [List.length_append, List.length_cons, List.length_nil, pushAll]
      congr 2
      omega
  | @more t t' items w txt w' more hw h hw' hmore =>
      have hpos := text_length h
      simp only [List.length_append, List.length_cons] at hdepth hrounds
      obtain ⟨rounds, rfl⟩ : ∃ r, rounds = r + 1 := Nat.exists_eq_add_one.2 (by omega)
      simp only [List.append_assoc, List.cons_append] at hat
      have hc : Ends ',' := Or.inl rfl
      rcases scanvalue_text h (show txt.length ≤ depth by omega) (hc.stops hw' _) hat.advance
        with ⟨added, v, hscan, hv⟩
      rcases scanRounds_items hmore (show more.length ≤ depth by omega)
        (show more.length ≤ rounds by omega)
        (s := ⟨s.heap ++ added, s.tbl.set (.num (s.n + 1 : Nat)) v (Val.num_ne_nil _), s.n + 1,
          s.pos + w.length + txt.length + w'.length + 1⟩)
        hat.advance.advance.advance.next with ⟨added', vs, hrun, hvs⟩
      refine ⟨added ++ added', v :: vs, ?_, ?_⟩
      · rw [scanRounds_value hw (text_start h) hw' hc hat hscan, if_pos rfl, hrun]
        simp only [List.length_append, List.length_cons, List.append_assoc, pushAll]
        congr 2 <;> omega
      · rw [← List.append_assoc]
        exact List.Forall₂.cons (hv.append _) hvs

theorem scanRounds_pairs {pairs : List (List Char × Tree)} {txt : List Char} (h : Pairs pairs txt) :
    ∀ {depth rounds startpos : Nat} {s : TableScan} {rest : List Char}, txt.length ≤ depth →
      txt.length ≤ rounds → At str s.pos (txt ++ rest) →
      ∃ added vs, scanRounds str (scanvalue doubles nullval metaOf str depth) .object startpos
            rounds s =
          .ok ⟨s.heap ++ added, putAll s.tbl ((pairs.map Prod.fst).zip vs), s.n,
            s.pos + txt.length⟩ ∧
        List.Forall₂ (fun v pair => Decoded doubles nullval metaOf (s.heap ++ added) v pair.2) vs
          pairs := by
  intro depth rounds startpos s rest hdepth hrounds hat
  cases h with
  | @nil w hw =>
      rw [List.length_append, List.length_singleton] at hrounds
      obtain ⟨rounds, rfl⟩ : ∃ r, rounds = r + 1 := Nat.exists_eq_add_one.2 (by omega)
      rw [List.append_assoc] at hat
      refine ⟨[], [], ?_, List.Forall₂.nil⟩
      rw [scanRounds_close hw hat, List.append_nil, List.length_append, List.length_singleton]
      rfl
  | @last key t w q w₁ w₂ txt w' hw hkey hw₁ hw₂ h hw' =>
      have hpos := text_length h
      simp only [List.length_append, List.length_cons, List.length_nil] at hdepth hrounds
      obtain ⟨rounds, rfl⟩ : ∃ r, rounds = r + 1 + 1 := ⟨rounds - 2, by omega⟩
      obtain ⟨depth, rfl⟩ : ∃ d, depth = d + 1 := Nat.exists_eq_add_one.2 (by omega)
      simp only [List.append_assoc, List.cons_append, List.nil_append] at hat
      have hc : Ends '}' := Or.inr (Or.inr rfl)
      have hvalue := hat.advance.advance.advance.next.advance
      rcases scanvalue_text h (show txt.length ≤ depth + 1 by omega) (hc.stops hw' rest) hvalue
        with ⟨added, v, hscan, hv⟩
      refine ⟨added, [v], ?_, List.Forall₂.cons hv List.Forall₂.nil⟩
      rw [scanRounds_pair hw hkey hw₁ hw₂ (text_start h) hw' hc hat
        (scanvalue_key hkey hat.advance depth s.heap) hscan, if_neg (by decide),
        scanRounds_close (w := []) white_nil hvalue.advance.advance]
      simp only [List.length_append, List.length_cons, List.length_nil, List.map_cons, List.map_nil,
        List.zip_cons_cons, List.zip_nil_left, putAll]
      congr 2
      omega
  | @more key t pair pairs w q w₁ w₂ txt w' more hw hkey hw₁ hw₂ h hw' hmore =>
      have hpos := text_length h
      simp only [List.length_append, List.length_cons] at hdepth hrounds
      obtain ⟨rounds, rfl⟩ : ∃ r, rounds = r + 1 := Nat.exists_eq_add_one.2 (by omega)
      obtain ⟨depth, rfl⟩ : ∃ d, depth = d + 1 := Nat.exists_eq_add_one.2 (by omega)
      simp only [List.append_assoc, List.cons_append] at hat
      have hc : Ends ',' := Or.inl rfl
      have hvalue := hat.advance.advance.advance.next.advance
      rcases scanvalue_text h (show txt.length ≤ depth + 1 by omega) (hc.stops hw' _) hvalue
        with ⟨added, v, hscan, hv⟩
      rcases scanRounds_pairs hmore (show more.length ≤ depth + 1 by omega)
        (show more.length ≤ rounds by omega)
        (s := ⟨s.heap ++ added, s.tbl.set (.str key) v (Val.str_ne_nil _), s.n,
          s.pos + w.length + q.length + w₁.length + 1 + w₂.length + txt.length + w'.length + 1⟩)
        hvalue.advance.advance.next with ⟨added', vs, hrun, hvs⟩
      refine ⟨added ++ added', v :: vs, ?_, ?_⟩
      · rw [scanRounds_pair hw hkey hw₁ hw₂ (text_start h) hw' hc hat
          (scanvalue_key hkey hat.advance depth s.heap) hscan, if_pos rfl, hrun]
        simp only [List.length_append, List.length_cons, List.append_assoc, List.map_cons,
          List.zip_cons_cons, putAll]
        congr 2
        omega
      · rw [← List.append_assoc]
        exact List.Forall₂.cons (hv.append _) hvs

end

theorem blank_white : White [' '] := fun _ hc => List.mem_singleton.1 hc ▸ rfl

theorem sampleArray_text :
    Text (.arr [.bool true, .num (wholeNumeral 14).value]) "[true ,14]".toList := by
  have hlast := Items.last white_nil (Text.num (wholeNumeral 14)) white_nil
  have hitems := Items.more white_nil (Text.bool true) blank_white hlast
  exact Text.arr hitems

end Read

end Json
end LuajitTcpServer
