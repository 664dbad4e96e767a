import LuajitTcpServer.Json.Encoding

/-!
# Shown — what `encode` writes, and when

`Shows v t` says that the value `v` unfolds to the tree `t`.  A value that is written is one that
unfolds, and the text is one of its tree (`encode_text`); every value that unfolds is written, so
a cycle is always found (`encode_exact`).
-/

namespace LuajitTcpServer
namespace Json

open Lua Loops JsonText

section Shows

variable (doubles : Doubles) (heap : Heap) (keyorder : Option (List Val))

/-! ## The tree of a value -/

/-- The pairs in the order in which they are written. -/
def entriesInOrder (tbl : LuaTable) : List Entry :=
  let first := (orderOf keyorder tbl).filter fun key => (tbl.get key).isTrue
  first.map (fun key => (key, tbl.get key)) ++ tbl.entries.filter fun e => e.1 ∉ first

inductive Shows : Val → Tree → Prop
  | nil : Shows .nil .null
  | null : Shows .null .null
  | bool (b : Bool) : Shows (.bool b) (.bool b)
  | num (q : ℚ) : Shows (.num q) (.num (doubles.numeral q).value)
  | str (txt : List Char) : Shows (.str txt) (.str txt)
  | arr {address : Nat} {items : List Tree}
      (hlength : arrayLength (heap.tableAt address) = some (items.length : ℚ))
      (h : ∀ i (hi : i < items.length),
        Shows ((heap.tableAt address).get (.num (i + 1 : Nat))) items[i]) :
      Shows (.table address) (.arr items)
  | obj {address : Nat} {pairs : List (List Char × Tree)}
      (hlength : arrayLength (heap.tableAt address) = none)
      (hcount : (entriesInOrder keyorder (heap.tableAt address)).length = pairs.length)
      (hkey : ∀ i (hi : i < pairs.length),
        keyText doubles ((entriesInOrder keyorder (heap.tableAt address))[i]).1 = some pairs[i].1)
      (h : ∀ i (hi : i < pairs.length),
        Shows ((entriesInOrder keyorder (heap.tableAt address))[i]).2 pairs[i].2) :
      Shows (.table address) (.obj pairs)

end Shows

section

variable {doubles : Doubles} {heap : Heap} {keyorder : Option (List Val)}

/-- A value has one tree. -/
theorem Shows.functional {v : Val} {t t' : Tree} (h : Shows doubles heap keyorder v t)
    (h' : Shows doubles heap keyorder v t') : t = t' := by
  induction h generalizing t' with
  | nil =>
      cases h'
      rfl
  | null =>
      cases h'
      rfl
  | bool b =>
      cases h'
      rfl
  | num q =>
      cases h'
      rfl
  | str txt =>
      cases h'
      rfl
  | arr hlength h ih =>
      cases h' with
      | arr hlength' h' =>
          rw [hlength, Option.some.injEq, Nat.cast_inj] at hlength'
          exact congrArg Tree.arr (List.ext_getElem hlength' fun i hi hi' => ih i hi (h' i hi'))
      | obj hlength' =>
          rw [hlength] at hlength'
          cases hlength'
  | obj hlength hcount hkey h ih =>
      cases h' with
      | arr hlength' =>
          rw [hlength] at hlength'
          cases hlength'
      | obj hlength' hcount' hkey' h' =>
          refine congrArg Tree.obj (List.ext_getElem (hcount.symm.trans hcount') fun i hi hi' => ?_)
          have hname := hkey i hi
          rw [hkey' i hi'] at hname
          exact Prod.ext (Option.some.inj hname).symm (ih i hi (h' i hi'))

end

/-! ## Lists in step -/

theorem forall₂_append_split {α β : Type} {R : α → β → Prop} {as as' : List α} {bs : List β}
    (h : List.Forall₂ R (as ++ as') bs) :
    ∃ bs₁ bs₂, bs = bs₁ ++ bs₂ ∧ List.Forall₂ R as bs₁ ∧ List.Forall₂ R as' bs₂ := by
  refine ⟨bs.take as.length, bs.drop as.length, (List.take_append_drop _ bs).symm, ?_, ?_⟩
  · exact (List.forall₂_take_append _ _ _ h.flip).flip
  · exact (List.forall₂_drop_append _ _ _ h.flip).flip

theorem forall₂_of_forall {α β : Type} {R : α → β → Prop} (as : List α)
    (h : ∀ a ∈ as, ∃ b, R a b) : ∃ bs, List.Forall₂ R as bs := by
  induction as with
  | nil =>
      exact ⟨[], .nil⟩
  | cons a as ih =>
      rcases h a List.mem_cons_self with ⟨b, hb⟩
      rcases ih fun a' ha' => h a' (List.mem_cons_of_mem _ ha') with ⟨bs, hbs⟩
      exact ⟨b :: bs, .cons hb hbs⟩

theorem forall₂_left {α β : Type} {R : α → β → Prop} {as : List α} {bs : List β}
    (h : List.Forall₂ R as bs) : ∀ a ∈ as, ∃ b, R a b := by
  intro a ha
  rcases List.getElem_of_mem ha with ⟨i, hi, rfl⟩
  exact ⟨_, h.get hi (h.length_eq ▸ hi)⟩

/-- Two lists that have a common partner at each place. -/
theorem forall₂_common {α β γ : Type} {R : α → γ → Prop} {S : β → γ → Prop} {as : List α}
    {bs : List β} (hcount : as.length = bs.length)
    (h : ∀ i (ha : i < as.length) (hb : i < bs.length), ∃ c, R as[i] c ∧ S bs[i] c) :
    ∃ cs, List.Forall₂ R as cs ∧ List.Forall₂ S bs cs := by
  induction as generalizing bs with
  | nil =>
      rw [List.eq_nil_of_length_eq_zero hcount.symm]
      exact ⟨[], .nil, .nil⟩
  | cons a as ih =>
      cases bs with
      | nil =>
          cases hcount
      | cons b bs =>
          rcases h 0 (Nat.succ_pos _) (Nat.succ_pos _) with ⟨c, hac, hbc⟩
          rcases ih (Nat.succ.inj hcount) fun i ha hb =>
            h (i + 1) (Nat.succ_lt_succ ha) (Nat.succ_lt_succ hb) with ⟨cs, has, hbs⟩
          exact ⟨c :: cs, .cons hac has, .cons hbc hbs⟩

/-! ## Pairs -/

/-- Pieces with commas between them, and one in front when there is a piece before. -/
def joinPieces : Bool → List (List Char) → List Char
  | _, [] => []
  | prev, piece :: pieces => (if prev then [','] else []) ++ (piece ++ joinPieces true pieces)

theorem joinPieces_append (prev : Bool) (pieces pieces' : List (List Char)) :
    joinPieces prev (pieces ++ pieces') =
      joinPieces prev pieces ++ joinPieces (prev || !pieces.isEmpty) pieces' := by
  induction pieces generalizing prev with
  | nil =>
      simp [joinPieces]
  | cons piece pieces ih =>
      simp [joinPieces, ih]

section Table

variable {doubles : Doubles} {indent : Bool} {keyorder : Option (List Val)}
  {encode : Val → Except Failure (List Char)} {level : Nat} {tbl : LuaTable}

/-- The piece of an entry, when its key has a text and its value is written. -/
def PairPiece (doubles : Doubles) (indent : Bool) (encode : Val → Except Failure (List Char))
    (level : Nat) (e : Entry) (piece : List Char) : Prop :=
  ∃ name, keyText doubles e.1 = some name ∧ pairText indent encode level name e.2 = .ok piece

theorem addpair_ok_iff {key value : Val} {prev : Bool} {buffer : Option (List Char)}
    {out : List Char} :
    addpair doubles indent encode level key value prev buffer = .ok out ↔
      ∃ buf piece, buffer = some buf ∧ PairPiece doubles indent encode level (key, value) piece ∧
        out = buf ++ joinPieces prev [piece] := by
  rw [addpair]
  cases hname : keyText doubles key with
  | none =>
      refine iff_of_false (fun h => nomatch h) ?_
      rintro ⟨buf, piece, -, ⟨name, hkey, -⟩, -⟩
      rw [hname] at hkey
      cases hkey
  | some name =>
      cases buffer with
      | none =>
          refine iff_of_false (fun h => nomatch h) ?_
          rintro ⟨buf, piece, hbuffer, -⟩
          cases hbuffer
      | some buffer =>
          simp only [bind_ok_iff]
          constructor
          · rintro ⟨piece, hpiece, hout⟩
            cases hout
            exact ⟨buffer, piece, rfl, ⟨name, hname, hpiece⟩, by simp [joinPieces]⟩
          · rintro ⟨buf, piece, hbuffer, ⟨name', hkey, hpiece⟩, hout⟩
            cases hbuffer
            rw [hname] at hkey
            cases hkey
            exact ⟨piece, hpiece, by rw [hout]; simp [joinPieces, pure, Except.pure]⟩

theorem addEntries_ok_iff {entries : List Entry} {buf : List Char} {used : List Val} {prev : Bool}
    {s : PairState} :
    entries.foldlM (addEntry doubles indent encode level) ⟨some buf, used, prev⟩ = .ok s ↔
      ∃ pieces, List.Forall₂ (PairPiece doubles indent encode level)
          (entries.filter fun e => e.1 ∉ used) pieces ∧
        s = ⟨some (buf ++ joinPieces prev pieces), used, prev || !pieces.isEmpty⟩ := by
  induction entries generalizing buf prev with
  | nil =>
      simp only [List.foldlM_nil, List.filter_nil, List.forall₂_nil_left_iff]
      constructor
      · intro h
        cases h
        exact ⟨[], rfl, by simp [joinPieces]⟩
      · rintro ⟨pieces, rfl, rfl⟩
        simp [joinPieces, pure, Except.pure]
  | cons e entries ih =>
      rw [List.foldlM_cons]
      by_cases hused : e.1 ∈ used
      · -- the entry has been written in the order of its key
        have hskip : addEntry doubles indent encode level ⟨some buf, used, prev⟩ e =
            .ok ⟨some buf, used, prev⟩ := if_pos hused
        rw [hskip, List.filter_cons_of_neg (by simpa using hused)]
        exact ih
      · rw [List.filter_cons_of_pos (by simpa using hused)]
        have hadd : ∀ s', addEntry doubles indent encode level ⟨some buf, used, prev⟩ e = .ok s' ↔
            ∃ piece, PairPiece doubles indent encode level e piece ∧
              s' = ⟨some (buf ++ joinPieces prev [piece]), used, true⟩ := by
          intro s'
          rw [addEntry, if_neg hused]
          simp only [bind_ok_iff, addpair_ok_iff]
          constructor
          · rintro ⟨out, ⟨buf', piece, hbuf, hpiece, rfl⟩, hs⟩
            cases hbuf
            cases hs
            exact ⟨piece, hpiece, rfl⟩
          · rintro ⟨piece, hpiece, rfl⟩
            exact ⟨_, ⟨buf, piece, rfl, hpiece, rfl⟩, rfl⟩
        rw [bind_ok_iff]
        constructor
        · rintro ⟨s', hs', hrest⟩
          rcases (hadd s').1 hs' with ⟨piece, hpiece, rfl⟩
          rcases ih.1 hrest with ⟨pieces, hpieces, rfl⟩
          refine ⟨piece :: pieces, .cons hpiece hpieces, ?_⟩
          simp [joinPieces]
        · rintro ⟨pieces', hpieces', rfl⟩
          cases hpieces' with
          | cons hpiece hpieces =>
              refine ⟨_, (hadd _).2 ⟨_, hpiece, rfl⟩, ih.2 ⟨_, hpieces, ?_⟩⟩
              simp [joinPieces]

/-- The buffer is lost once a pair has failed. -/
theorem addOrdered_none {keys : List Val} {s s' : PairState} (hbuffer : s.buffer = none)
    (h : keys.foldlM (addOrdered doubles indent encode level tbl) s = .ok s') :
    s'.buffer = none := by
  induction keys generalizing s with
  | nil =>
      cases h
      exact hbuffer
  | cons key keys ih =>
      rw [List.foldlM_cons, bind_ok_iff] at h
      rcases h with ⟨s₁, hs₁, hrest⟩
      refine ih ?_ hrest
      rw [addOrdered] at hs₁
      split_ifs at hs₁
      · rw [hbuffer] at hs₁
        split at hs₁
        · rename_i buffer hadd
          rcases addpair_ok_iff.1 hadd with ⟨buf, piece, hnone, -⟩
          cases hnone
        · cases hs₁
          rfl
        · cases hs₁
      · cases hs₁
        exact hbuffer

theorem addEntries_none {entries : List Entry} {s s' : PairState} (hbuffer : s.buffer = none)
    (h : entries.foldlM (addEntry doubles indent encode level) s = .ok s') : s'.buffer = none := by
  induction entries generalizing s with
  | nil =>
      cases h
      exact hbuffer
  | cons e entries ih =>
      rw [List.foldlM_cons, bind_ok_iff] at h
      rcases h with ⟨s₁, hs₁, hrest⟩
      refine ih ?_ hrest
      rw [addEntry] at hs₁
      split_ifs at hs₁
      · cases hs₁
        exact hbuffer
      · rcases bind_ok_iff.1 hs₁ with ⟨buffer, hadd, -⟩
        rcases addpair_ok_iff.1 hadd with ⟨buf, piece, hsome, -⟩
        rw [hbuffer] at hsome
        cases hsome

/-- The pairs of the order are written when the buffer is there behind them. -/
theorem addKeys_ok_iff {keys used : List Val} {buf out : List Char} {prev : Bool}
    {s : PairState} (hs : s.buffer = some out) :
    keys.foldlM (addOrdered doubles indent encode level tbl) ⟨some buf, used, prev⟩ = .ok s ↔
      ∃ pieces, List.Forall₂ (PairPiece doubles indent encode level)
          ((keys.filter fun key => (tbl.get key).isTrue).map fun key => (key, tbl.get key)) pieces ∧
        s = ⟨some (buf ++ joinPieces prev pieces),
          (keys.filter fun key => (tbl.get key).isTrue).reverse ++ used,
          prev || !pieces.isEmpty⟩ := by
  induction keys generalizing buf used prev with
  | nil =>
      simp only [List.foldlM_nil, List.filter_nil, List.map_nil, List.forall₂_nil_left_iff]
      constructor
      · intro h
        cases h
        exact ⟨[], rfl, by simp [joinPieces]⟩
      · rintro ⟨pieces, rfl, rfl⟩
        simp [joinPieces, pure, Except.pure]
  | cons key keys ih =>
      rw [List.foldlM_cons]
      by_cases htrue : (tbl.get key).isTrue = true
      · rw [@List.filter_cons_of_pos _ (fun key => (tbl.get key).isTrue) _ _ htrue, List.map_cons,
          bind_ok_iff]
        constructor
        · rintro ⟨s', hs', hrest⟩
          rw [addOrdered, if_pos htrue] at hs'
          split at hs'
          · rename_i buffer hadd
            rcases addpair_ok_iff.1 hadd with ⟨buf', piece, hbuf, hpiece, rfl⟩
            cases hbuf
            cases hs'
            rcases ih.1 hrest with ⟨pieces, hpieces, hstate⟩
            refine ⟨piece :: pieces, .cons hpiece hpieces, hstate.trans ?_⟩
            simp [joinPieces]
          · cases hs'
            rw [addOrdered_none rfl hrest] at hs
            cases hs
          · cases hs'
        · rintro ⟨pieces', hpieces', hstate⟩
          cases hpieces' with
          | @cons _ piece _ pieces hpiece hpieces =>
              have hnext : addOrdered doubles indent encode level tbl ⟨some buf, used, prev⟩ key =
                  .ok ⟨some (buf ++ joinPieces prev [piece]), key :: used, true⟩ := by
                rw [addOrdered, if_pos htrue, addpair_ok_iff.2 ⟨buf, piece, rfl, hpiece, rfl⟩]
              refine ⟨_, hnext, ih.2 ⟨pieces, hpieces, hstate.trans ?_⟩⟩
              simp [joinPieces]
      · have hskip : addOrdered doubles indent encode level tbl ⟨some buf, used, prev⟩ key =
            .ok ⟨some buf, used, prev⟩ := if_neg htrue
        rw [hskip, @List.filter_cons_of_neg _ (fun key => (tbl.get key).isTrue) _ _ htrue]
        exact ih

/-- An object is written when each of its pairs is, and the pieces stand in their order. -/
theorem encodeObject_ok_iff {txt : List Char} :
    encodeObject doubles indent keyorder encode level tbl = .ok txt ↔
      ∃ pieces, List.Forall₂ (PairPiece doubles indent encode level)
          (entriesInOrder keyorder tbl) pieces ∧
        txt = '{' :: (joinPieces false pieces ++ (newline indent (level - 1) ++ ['}'])) := by
  have hfilter : ∀ keys : List Val, (tbl.entries.filter fun e => e.1 ∉ keys.reverse ++ []) =
      tbl.entries.filter fun e => e.1 ∉ keys := by
    intro keys
    simp
  rw [encodeObject, bind_ok_iff]
  constructor
  · rintro ⟨s₁, hs₁, h⟩
    rcases bind_ok_iff.1 h with ⟨s₂, hs₂, htxt⟩
    cases hbuffer : s₁.buffer with
    | none =>
        -- a pair of the order has failed
        rw [addEntries_none hbuffer hs₂] at htxt
        cases htxt
    | some buffer =>
        rcases (addKeys_ok_iff hbuffer).1 hs₁ with ⟨pieces₁, hpieces₁, rfl⟩
        rcases addEntries_ok_iff.1 hs₂ with ⟨pieces₂, hpieces₂, rfl⟩
        rw [hfilter] at hpieces₂
        refine ⟨pieces₁ ++ pieces₂, List.rel_append hpieces₁ hpieces₂, ?_⟩
        cases htxt
        simp [joinPieces_append]
  · rintro ⟨pieces, hpieces, rfl⟩
    rw [entriesInOrder] at hpieces
    rcases forall₂_append_split hpieces with ⟨pieces₁, pieces₂, rfl, hpieces₁, hpieces₂⟩
    rw [← hfilter] at hpieces₂
    refine ⟨_, (addKeys_ok_iff rfl).2 ⟨_, hpieces₁, rfl⟩, bind_ok_iff.2 ⟨_,
      addEntries_ok_iff.2 ⟨_, hpieces₂, rfl⟩, ?_⟩⟩
    simp [joinPieces_append, pure, Except.pure]

end Table

/-! ## Arrays -/

theorem joinPieces_true (pieces : List (List Char)) :
    joinPieces true pieces = if pieces = [] then [] else ',' :: joinPieces false pieces := by
  cases pieces with
  | nil =>
      rfl
  | cons piece pieces =>
      rfl

/-- The elements of an array of this length. -/
def elements (tbl : LuaTable) (n : Nat) : List Val :=
  (List.range' 1 n).map fun i => tbl.get (.num (i : Nat))

section Array

variable {encode : Val → Except Failure (List Char)} {tbl : LuaTable} {n : Nat}

theorem encodeItems_ok_iff {count i : Nat} {txt : List Char} (hcount : i + count = n + 1) :
    encodeItems encode tbl n count i = .ok txt ↔
      ∃ pieces, List.Forall₂ (fun v piece => encode v = .ok piece)
          ((List.range' i count).map fun i => tbl.get (.num (i : Nat))) pieces ∧
        txt = joinPieces false pieces := by
  induction count generalizing i txt with
  | zero =>
      simp only [encodeItems, List.range'_zero, List.map_nil, List.forall₂_nil_left_iff]
      constructor
      · intro h
        cases h
        exact ⟨[], rfl, rfl⟩
      · rintro ⟨pieces, rfl, rfl⟩
        rfl
  | succ count ih =>
      -- a comma follows when there is another element
      have hcomma : ∀ pieces : List (List Char), pieces.length = count →
          (if ((i : Nat) : ℚ) < n then [','] else []) ++ joinPieces false pieces =
            joinPieces true pieces := by
        intro pieces hlength
        rw [joinPieces_true]
        by_cases hpieces : pieces = []
        · have hlast : ¬ ((i : Nat) : ℚ) < n := by
            rw [hpieces, List.length_nil] at hlength
            rw [Nat.cast_lt]
            omega
          rw [if_neg hlast, if_pos hpieces, hpieces]
          rfl
        · have hmore : ((i : Nat) : ℚ) < n := by
            have hpos := List.length_pos_iff.2 hpieces
            rw [Nat.cast_lt]
            omega
          rw [if_pos hmore, if_neg hpieces]
          rfl
      rw [encodeItems, bind_ok_iff, List.range'_succ, List.map_cons]
      constructor
      · rintro ⟨piece, hpiece, h⟩
        rcases bind_ok_iff.1 h with ⟨rest, hrest, htxt⟩
        rcases (ih (by omega)).1 hrest with ⟨pieces, hpieces, rfl⟩
        refine ⟨piece :: pieces, .cons hpiece hpieces, ?_⟩
        have hlength : pieces.length = count := by
          rw [← hpieces.length_eq, List.length_map, List.length_range']
        cases htxt
        rw [hcomma pieces hlength, joinPieces]
        rfl
      · rintro ⟨pieces', hpieces', rfl⟩
        cases hpieces' with
        | @cons _ piece _ pieces hpiece hpieces =>
            have hlength : pieces.length = count := by
              rw [← hpieces.length_eq, List.length_map, List.length_range']
            refine ⟨piece, hpiece, bind_ok_iff.2 ⟨_, (ih (by omega)).2 ⟨pieces, hpieces, rfl⟩, ?_⟩⟩
            rw [hcomma pieces hlength, joinPieces]
            rfl

theorem encodeArray_ok_iff {txt : List Char} :
    encodeArray encode tbl n = .ok txt ↔
      ∃ pieces, List.Forall₂ (fun v piece => encode v = .ok piece) (elements tbl n) pieces ∧
        txt = '[' :: (joinPieces false pieces ++ [']']) := by
  rw [encodeArray, Nat.floor_natCast, bind_ok_iff]
  constructor
  · rintro ⟨items, hitems, htxt⟩
    rcases (encodeItems_ok_iff (by omega)).1 hitems with ⟨pieces, hpieces, rfl⟩
    cases htxt
    exact ⟨pieces, hpieces, rfl⟩
  · rintro ⟨pieces, hpieces, rfl⟩
    exact ⟨_, (encodeItems_ok_iff (by omega)).2 ⟨pieces, hpieces, rfl⟩, rfl⟩

end Array

/-- The length of a table that has a whole number in its field `n`, or none. -/
def WholeLength (tbl : LuaTable) : Prop :=
  ∀ q, tbl.get (.str ['n']) = .num q → (⌊q⌋ : ℚ) = q

theorem exists_natCast {q : ℚ} (hwhole : (⌊q⌋ : ℚ) = q) (h : 0 ≤ q) : ∃ m : Nat, q = m := by
  refine ⟨⌊q⌋.toNat, ?_⟩
  have hnonneg : 0 ≤ ⌊q⌋ := Int.floor_nonneg.2 h
  calc q = (⌊q⌋ : ℚ) := hwhole.symm
    _ = ((⌊q⌋.toNat : Int) : ℚ) := by rw [Int.toNat_of_nonneg hnonneg]
    _ = (⌊q⌋.toNat : ℚ) := Int.cast_natCast _

theorem scanEntries_whole {entries : List Entry} {s s' : ArrayScan}
    (hentries : ∀ q, (Val.str ['n'], Val.num q) ∈ entries → (⌊q⌋ : ℚ) = q)
    (hs : ∃ m : Nat, s.max = m) (h : entries.foldlM scanEntry s = some s') :
    ∃ m : Nat, s'.max = m := by
  induction entries generalizing s with
  | nil =>
      cases h
      exact hs
  | cons e entries ih =>
      rw [List.foldlM_cons, Option.bind_eq_bind, Option.bind_eq_some_iff] at h
      rcases h with ⟨s₁, hs₁, hrest⟩
      refine ih (fun q hq => hentries q (List.mem_cons_of_mem _ hq)) ?_ hrest
      have hnonneg : 0 ≤ s.max := by
        rcases hs with ⟨m, hm⟩
        rw [hm]
        exact Nat.cast_nonneg m
      unfold scanEntry at hs₁
      split at hs₁
      · rename_i v
        cases hs₁
        dsimp only
        split_ifs with hlt
        · exact exists_natCast (hentries v List.mem_cons_self) (hnonneg.trans hlt.le)
        · exact hs
      · split_ifs at hs₁ with hbad hlt
        · cases hs₁
          exact exists_natCast (not_not.1 (not_or.1 hbad).2) (hnonneg.trans hlt.le)
        · cases hs₁
          exact hs
      · cases hs₁

theorem arrayLength_whole {tbl : LuaTable} (h : WholeLength tbl) {n : ℚ}
    (hn : arrayLength tbl = some n) : ∃ m : Nat, n = m := by
  have hisarray : isarray tbl = some n := by
    rw [arrayLength] at hn
    split at hn
    · cases hn
    · rename_i n' hn'
      split_ifs at hn
      cases hn
      exact hn'
  rw [isarray] at hisarray
  split at hisarray
  · cases hisarray
  · rename_i s hs
    split_ifs at hisarray
    cases hisarray
    exact scanEntries_whole (fun q hq => h q (tbl.get_eq hq)) ⟨0, Nat.cast_zero.symm⟩ hs

/-! ## What is written -/

theorem items_text {items : List Tree} {pieces : List (List Char)}
    (h : List.Forall₂ Text items pieces) : Items items (joinPieces false pieces ++ [']']) := by
  induction h with
  | nil =>
      exact Items.nil white_nil
  | @cons t piece items pieces htext hrest ih =>
      rw [joinPieces, joinPieces_true]
      cases hrest with
      | nil =>
          have hlast := Items.last white_nil htext white_nil
          simpa using hlast
      | cons htext' hrest' =>
          rw [if_neg (List.cons_ne_nil _ _)]
          have hmore := Items.more white_nil htext white_nil ih
          simpa using hmore

/-- The piece of a pair, with blanks in front. -/
def PairText (pair : List Char × Tree) (piece : List Char) : Prop :=
  ∃ w q txt, White w ∧ StringText q pair.1 ∧ Text pair.2 txt ∧ piece = w ++ (q ++ ':' :: txt)

theorem pairs_text {pairs : List (List Char × Tree)} {pieces : List (List Char)} {w' : List Char}
    (h : List.Forall₂ PairText pairs pieces) (hw' : White w') :
    Pairs pairs (joinPieces false pieces ++ (w' ++ ['}'])) := by
  induction h with
  | nil =>
      exact Pairs.nil hw'
  | @cons pair piece pairs pieces hpair hrest ih =>
      rcases hpair with ⟨w, q, txt, hw, hkey, htext, rfl⟩
      rw [joinPieces, joinPieces_true]
      cases hrest with
      | nil =>
          have hlast := Pairs.last hw hkey white_nil white_nil htext hw'
          simpa using hlast
      | cons hpair' hrest' =>
          rw [if_neg (List.cons_ne_nil _ _)]
          have hmore := Pairs.more hw hkey white_nil white_nil htext white_nil ih
          simpa using hmore

theorem newline_white (indent : Bool) (level : Nat) : White (newline indent level) := by
  rw [newline]
  split_ifs
  · intro c hc
    rcases List.mem_cons.1 hc with rfl | hc
    · decide
    · rcases List.mem_flatten.1 hc with ⟨blanks, hblanks, hc⟩
      rw [List.eq_of_mem_replicate hblanks] at hc
      rcases List.mem_pair.1 hc with rfl | rfl <;> decide
  · exact white_nil

section Run

variable {doubles : Doubles} {heap : Heap} {indent : Bool} {keyorder : Option (List Val)}

theorem shows_arr {address : Nat} {items : List Tree}
    (hlength : arrayLength (heap.tableAt address) = some (items.length : ℚ))
    (h : List.Forall₂ (Shows doubles heap keyorder)
      (elements (heap.tableAt address) items.length) items) :
    Shows doubles heap keyorder (.table address) (.arr items) := by
  refine Shows.arr hlength fun i hi => ?_
  have hget := (List.forall₂_iff_get.1 h).2 i (by simpa [elements] using hi) hi
  simpa [elements, Nat.add_comm] using hget

theorem shows_obj {address : Nat} {pairs : List (List Char × Tree)}
    (hlength : arrayLength (heap.tableAt address) = none)
    (h : List.Forall₂ (fun e pair => keyText doubles e.1 = some pair.1 ∧
        Shows doubles heap keyorder e.2 pair.2)
      (entriesInOrder keyorder (heap.tableAt address)) pairs) :
    Shows doubles heap keyorder (.table address) (.obj pairs) := by
  have hget := (List.forall₂_iff_get.1 h).2
  exact Shows.obj hlength h.length_eq (fun i hi => (hget i (h.length_eq ▸ hi) hi).1)
    fun i hi => (hget i (h.length_eq ▸ hi) hi).2

/-- What is written unfolds to a tree. -/
theorem encode2_shows (hwhole : ∀ address, WholeLength (heap.tableAt address)) (fuel : Nat) :
    ∀ (level : Nat) (tables : List Nat) (v : Val) (txt : List Char),
      encode2 doubles heap indent keyorder fuel level tables v = .ok txt →
        ∃ t, Shows doubles heap keyorder v t := by
  induction fuel with
  | zero =>
      intro level tables v txt h
      cases h
  | succ fuel ih =>
      intro level tables v txt h
      cases v with
      | nil =>
          exact ⟨_, Shows.nil⟩
      | null =>
          exact ⟨_, Shows.null⟩
      | bool b =>
          exact ⟨_, Shows.bool b⟩
      | num q =>
          exact ⟨_, Shows.num q⟩
      | str s =>
          exact ⟨_, Shows.str s⟩
      | other type =>
          cases h
      | table address =>
          rw [encode2] at h
          split_ifs at h
          cases hlength : arrayLength (heap.tableAt address) with
          | some n =>
              rcases arrayLength_whole (hwhole address) hlength with ⟨m, rfl⟩
              rw [encodeTable, hlength] at h
              rcases encodeArray_ok_iff.1 h with ⟨pieces, hpieces, -⟩
              have hitem : ∀ v ∈ elements (heap.tableAt address) m,
                  ∃ t, Shows doubles heap keyorder v t := by
                intro v hv
                rcases forall₂_left hpieces v hv with ⟨piece, hpiece⟩
                exact ih _ _ v piece hpiece
              rcases forall₂_of_forall _ hitem with ⟨items, hitems⟩
              have hcount : items.length = m := by
                rw [← hitems.length_eq, elements, List.length_map, List.length_range']
              subst hcount
              exact ⟨_, shows_arr hlength hitems⟩
          | none =>
              rw [encodeTable, hlength] at h
              rcases encodeObject_ok_iff.1 h with ⟨pieces, hpieces, -⟩
              have hpair : ∀ e ∈ entriesInOrder keyorder (heap.tableAt address),
                  ∃ pair : List Char × Tree, keyText doubles e.1 = some pair.1 ∧
                    Shows doubles heap keyorder e.2 pair.2 := by
                intro e he
                rcases forall₂_left hpieces e he with ⟨piece, name, hname, hpiece⟩
                rcases bind_ok_iff.1 hpiece with ⟨q, -, hrest⟩
                rcases bind_ok_iff.1 hrest with ⟨written, hwritten, -⟩
                rcases ih _ _ _ _ hwritten with ⟨t, hshows⟩
                exact ⟨(name, t), hname, hshows⟩
              rcases forall₂_of_forall _ hpair with ⟨pairs, hpairs⟩
              exact ⟨_, shows_obj hlength hpairs⟩

/-- The tables that are being written differ, and the rest of the heap is not used up. -/
structure Enough (heap : Heap) (fuel : Nat) (tables : List Nat) : Prop where
  nodup : tables.Nodup
  lt : ∀ b ∈ tables, b < heap.length
  count : heap.length < fuel + tables.length

theorem Enough.length_le {fuel : Nat} {tables : List Nat} (h : Enough heap fuel tables) :
    tables.length ≤ heap.length := by
  have hsub : tables ⊆ List.range heap.length := fun b hb => List.mem_range.2 (h.lt b hb)
  have hle := (List.subperm_of_subset h.nodup hsub).length_le
  rwa [List.length_range] at hle

theorem Enough.cons {fuel address : Nat} {tables : List Nat} (h : Enough heap (fuel + 1) tables)
    (hnew : address ∉ tables) (hlt : address < heap.length) :
    Enough heap fuel (address :: tables) where
  nodup := List.nodup_cons.2 ⟨hnew, h.nodup⟩
  lt := List.forall_mem_cons.2 ⟨hlt, h.lt⟩
  count := by
    have hcount := h.count
    rw [List.length_cons]
    omega

/-- Behind the heap there are only empty tables. -/
theorem tableAt_of_le {address : Nat} (h : heap.length ≤ address) :
    heap.tableAt address = LuaTable.empty none := by
  rw [Heap.tableAt, List.getD_eq_getElem?_getD, List.getElem?_eq_none h]
  rfl

theorem arrayLength_empty : arrayLength (LuaTable.empty none) = some 0 := by decide +kernel

/-- A tree that is larger than this one stands for each of the tables. -/
def Inside (doubles : Doubles) (heap : Heap) (keyorder : Option (List Val)) (tables : List Nat)
    (t : Tree) : Prop :=
  ∀ b ∈ tables, ∃ t', Shows doubles heap keyorder (.table b) t' ∧ sizeOf t < sizeOf t'

theorem Inside.not_mem {tables : List Nat} {t : Tree} {address : Nat}
    (h : Inside doubles heap keyorder tables t)
    (hshows : Shows doubles heap keyorder (.table address) t) : address ∉ tables := by
  intro hmem
  rcases h address hmem with ⟨t', ht', hlt⟩
  rw [hshows.functional ht'] at hlt
  exact lt_irrefl _ hlt

theorem Inside.cons {tables : List Nat} {t t' : Tree} {address : Nat}
    (h : Inside doubles heap keyorder tables t)
    (hshows : Shows doubles heap keyorder (.table address) t) (hlt : sizeOf t' < sizeOf t) :
    Inside doubles heap keyorder (address :: tables) t' := by
  intro b hb
  rcases List.mem_cons.1 hb with rfl | hb
  · exact ⟨t, hshows, hlt⟩
  · rcases h b hb with ⟨t'', ht'', hlt'⟩
    exact ⟨t'', ht'', hlt.trans hlt'⟩

theorem sizeOf_item_lt {items : List Tree} {i : Nat} (hi : i < items.length) :
    sizeOf items[i] < sizeOf (Tree.arr items) := by
  have hmem := List.sizeOf_lt_of_mem (List.getElem_mem hi)
  rw [Tree.arr.sizeOf_spec]
  omega

theorem sizeOf_pair_lt {pairs : List (List Char × Tree)} {i : Nat} (hi : i < pairs.length) :
    sizeOf pairs[i].2 < sizeOf (Tree.obj pairs) := by
  have hmem := List.sizeOf_lt_of_mem (List.getElem_mem hi)
  have hpair : sizeOf pairs[i] = 1 + sizeOf pairs[i].1 + sizeOf pairs[i].2 := by
    generalize pairs[i] = pair
    cases pair
    rfl
  rw [Tree.obj.sizeOf_spec]
  omega

theorem lifted_quotestring (txt : List Char) :
    ∃ q, lifted (quotestring txt) = .ok q ∧ StringText q txt := by
  rcases quotestring_text txt with ⟨q, hquote, htext⟩
  exact ⟨q, by rw [hquote]; rfl, htext⟩

theorem Enough.succ {fuel : Nat} {tables : List Nat} (h : Enough heap fuel tables) :
    ∃ fuel', fuel = fuel' + 1 := by
  have hle := h.length_le
  have hcount := h.count
  exact ⟨fuel - 1, by omega⟩

/-- A value that unfolds is written, as a text of its tree.  The tables that it is in have larger
trees, so none of them is met again. -/
theorem Shows.written {v : Val} {t : Tree} (h : Shows doubles heap keyorder v t) :
    ∀ (fuel level : Nat) (tables : List Nat), Enough heap fuel tables →
      Inside doubles heap keyorder tables t →
        ∃ txt, encode2 doubles heap indent keyorder fuel level tables v = .ok txt ∧ Text t txt := by
  induction h with
  | nil =>
      intro fuel level tables henough _
      rcases henough.succ with ⟨fuel, rfl⟩
      exact ⟨_, rfl, Text.null⟩
  | null =>
      intro fuel level tables henough _
      rcases henough.succ with ⟨fuel, rfl⟩
      exact ⟨_, rfl, Text.null⟩
  | bool b =>
      intro fuel level tables henough _
      rcases henough.succ with ⟨fuel, rfl⟩
      exact ⟨_, rfl, Text.bool b⟩
  | num q =>
      intro fuel level tables henough _
      rcases henough.succ with ⟨fuel, rfl⟩
      exact ⟨_, rfl, Text.num _⟩
  | str txt =>
      intro fuel level tables henough _
      rcases henough.succ with ⟨fuel, rfl⟩
      rcases lifted_quotestring txt with ⟨q, hq, htext⟩
      exact ⟨q, hq, Text.str htext⟩
  | @arr address items hlength h ih =>
      intro fuel level tables henough hinside
      rcases henough.succ with ⟨fuel, rfl⟩
      have hshows := Shows.arr hlength h
      have hnew := hinside.not_mem hshows
      -- a table with an element is one of the heap
      have hlt : 0 < items.length → address < heap.length := by
        intro hpos
        by_contra hle
        rw [tableAt_of_le (Nat.le_of_not_lt hle), arrayLength_empty, Option.some.injEq] at hlength
        exact Nat.ne_of_lt hpos (by exact_mod_cast hlength)
      have hcount : (elements (heap.tableAt address) items.length).length = items.length := by
        rw [elements, List.length_map, List.length_range']
      have hitem : ∀ i (hi : i < (elements (heap.tableAt address) items.length).length)
          (hi' : i < items.length), ∃ piece,
          encode2 doubles heap indent keyorder fuel (level + 1) (address :: tables)
            (elements (heap.tableAt address) items.length)[i] = .ok piece ∧
            Text items[i] piece := by
        intro i hi hi'
        have helement : (elements (heap.tableAt address) items.length)[i] =
            (heap.tableAt address).get (.num (i + 1 : Nat)) := by
          simp [elements, Nat.add_comm]
        rw [helement]
        exact ih i hi' fuel (level + 1) (address :: tables)
          (henough.cons hnew (hlt (Nat.zero_lt_of_lt hi')))
          (hinside.cons hshows (sizeOf_item_lt hi'))
      rcases @forall₂_common _ _ _ (fun v piece => encode2 doubles heap indent keyorder fuel
        (level + 1) (address :: tables) v = .ok piece) Text _ _ hcount hitem
        with ⟨pieces, hpieces, htexts⟩
      have hout := encodeArray_ok_iff.2 ⟨pieces, hpieces, rfl⟩
      exact ⟨_, by rw [encode2, if_neg hnew, encodeTable, hlength]; exact hout,
        Text.arr (items_text htexts)⟩
  | @obj address pairs hlength hcount hkey h ih =>
      intro fuel level tables henough hinside
      rcases henough.succ with ⟨fuel, rfl⟩
      have hshows := Shows.obj hlength hcount hkey h
      have hnew := hinside.not_mem hshows
      have hlt : address < heap.length := by
        by_contra hle
        rw [tableAt_of_le (Nat.le_of_not_lt hle), arrayLength_empty] at hlength
        cases hlength
      -- each pair is smaller than the object, and the object is one more table above it
      have hpair : ∀ i (hi : i < (entriesInOrder keyorder (heap.tableAt address)).length)
          (hi' : i < pairs.length), ∃ piece,
          PairPiece doubles indent
            (encode2 doubles heap indent keyorder fuel (level + 1) (address :: tables))
            (level + 1) (entriesInOrder keyorder (heap.tableAt address))[i] piece ∧
            PairText pairs[i] piece := by
        intro i hi hi'
        rcases ih i hi' fuel (level + 1) (address :: tables) (henough.cons hnew hlt)
          (hinside.cons hshows (sizeOf_pair_lt hi')) with ⟨written, hwritten, htext⟩
        rcases lifted_quotestring pairs[i].1 with ⟨q, hq, hquoted⟩
        exact ⟨_, ⟨pairs[i].1, hkey i hi', bind_ok_iff.2 ⟨q, hq, bind_ok_iff.2 ⟨written, hwritten, rfl⟩⟩⟩,
          _, q, written, newline_white _ _, hquoted, htext, rfl⟩
      rcases forall₂_common hcount hpair with ⟨pieces, hpieces, htexts⟩
      have hout : encodeObject doubles indent keyorder _ (level + 1) (heap.tableAt address) = .ok _ :=
        encodeObject_ok_iff.2 ⟨pieces, hpieces, rfl⟩
      exact ⟨_, by rw [encode2, if_neg hnew, encodeTable, hlength]; exact hout,
        Text.obj (pairs_text htexts (newline_white _ _))⟩

/-- A value that unfolds to a tree is written as a text of it. -/
theorem Shows.encoded {v : Val} {t : Tree} (h : Shows doubles heap keyorder v t) :
    ∃ txt, encode doubles heap indent keyorder v = .ok txt ∧ Text t txt := by
  have henough : Enough heap (heap.length + 1) [] :=
    ⟨List.nodup_nil, List.forall_mem_nil _, Nat.lt_succ_self _⟩
  exact h.written _ _ _ henough (List.forall_mem_nil _)

/-- What `encode` writes is a text of the tree that the value unfolds to. -/
theorem encode_text (hwhole : ∀ tbl ∈ heap, WholeLength tbl) {v : Val} {txt : List Char}
    (h : encode doubles heap indent keyorder v = .ok txt) :
    ∃ t, Shows doubles heap keyorder v t ∧ Text t txt := by
  have htables : ∀ address, WholeLength (heap.tableAt address) := by
    intro address
    by_cases hlt : address < heap.length
    · rw [Heap.tableAt, List.getD_eq_getElem?_getD, List.getElem?_eq_getElem hlt]
      exact hwhole _ (List.getElem_mem hlt)
    · rw [tableAt_of_le (Nat.le_of_not_lt hlt)]
      intro q hq
      rw [LuaTable.get_empty] at hq
      cases hq
  rcases encode2_shows htables _ _ _ _ _ h with ⟨t, hshows⟩
  rcases @Shows.encoded _ _ indent _ _ _ hshows with ⟨txt', htxt', htext⟩
  rw [htxt'] at h
  cases h
  exact ⟨t, hshows, htext⟩

def sampleList : LuaTable :=
  ((LuaTable.empty none).set (.num 1) (.num 14) (Val.num_ne_nil _)).set (.num 2) (.bool true)
    (Val.num_ne_nil _)

def sampleObject : LuaTable :=
  ((LuaTable.empty none).set (.str ['a']) (.table 1) (Val.str_ne_nil _)).set (.str ['n'])
    (.str ['"']) (Val.str_ne_nil _)

def sampleHeap : Heap := [sampleObject, sampleList]

def sampleText : List Char := "\x7b\"a\":[14,true],\"n\":\"\\\"\"\x7d".toList

theorem sampleHeap_written :
    encode wholeDoubles sampleHeap false none (.table 0) = .ok sampleText := by
  decide +kernel

theorem sampleHeap_whole : ∀ tbl ∈ sampleHeap, WholeLength tbl := by
  have hobject : sampleObject.get (.str ['n']) = .str ['"'] := by decide
  have hlist : sampleList.get (.str ['n']) = .nil := by decide
  intro tbl htbl q hq
  rcases List.mem_pair.1 htbl with rfl | rfl
  · rw [hobject] at hq
    cases hq
  · rw [hlist] at hq
    cases hq

theorem foldlM_error {α σ : Type} {f : σ → α → Except Failure σ} {l : List α} {s : σ} {e : Failure}
    (h : l.foldlM f s = .error e) : ∃ a ∈ l, ∃ s', f s' a = .error e := by
  induction l generalizing s with
  | nil =>
      cases h
  | cons a l ih =>
      rw [List.foldlM_cons, bind_error_iff] at h
      rcases h with h | ⟨s', -, hrest⟩
      · exact ⟨a, List.mem_cons_self, s, h⟩
      · rcases ih hrest with ⟨a', ha', hs'⟩
        exact ⟨a', List.mem_cons_of_mem _ ha', hs'⟩

section Fuel

variable {encode : Val → Except Failure (List Char)} {level : Nat} {tbl : LuaTable}

theorem addpair_fuel {key value : Val} {prev : Bool} {buffer : Option (List Char)}
    (h : addpair doubles indent encode level key value prev buffer = .error .fuel) :
    encode value = .error .fuel := by
  rw [addpair] at h
  split at h
  · cases h
  · split at h
    · cases h
    · rcases bind_error_iff.1 h with h | ⟨piece, -, h⟩
      · rcases bind_error_iff.1 h with h | ⟨q, -, h⟩
        · exact absurd h (lifted_ne_fuel _)
        · rcases bind_error_iff.1 h with h | ⟨written, -, h⟩
          · exact h
          · cases h
      · cases h

theorem encodeItems_fuel {n : ℚ} {count i : Nat}
    (h : encodeItems encode tbl n count i = .error .fuel) : ∃ v, encode v = .error .fuel := by
  induction count generalizing i with
  | zero =>
      cases h
  | succ count ih =>
      rcases bind_error_iff.1 h with h | ⟨piece, -, h⟩
      · exact ⟨_, h⟩
      · rcases bind_error_iff.1 h with h | ⟨rest, -, h⟩
        · exact ih h
        · cases h

theorem encodeObject_fuel (h : encodeObject doubles indent keyorder encode level tbl = .error .fuel) :
    ∃ v, encode v = .error .fuel := by
  rcases bind_error_iff.1 h with h | ⟨s₁, -, h⟩
  · rcases foldlM_error h with ⟨key, -, s, h⟩
    rw [addOrdered] at h
    split_ifs at h
    split at h
    · cases h
    · cases h
    · rename_i hadd
      cases h
      exact ⟨_, addpair_fuel hadd⟩
  · rcases bind_error_iff.1 h with h | ⟨s₂, -, h⟩
    · rcases foldlM_error h with ⟨e, -, s, h⟩
      rw [addEntry] at h
      split_ifs at h
      rcases bind_error_iff.1 h with h | ⟨buffer, -, h⟩
      · exact ⟨_, addpair_fuel h⟩
      · cases h
    · split at h
      · cases h
      · cases h

end Fuel

/-- The calls are never nested deeper than there are tables. -/
theorem encode2_ne_fuel (fuel : Nat) :
    ∀ (level : Nat) (tables : List Nat) (v : Val), Enough heap fuel tables →
      encode2 doubles heap indent keyorder fuel level tables v ≠ .error .fuel := by
  induction fuel with
  | zero =>
      intro level tables v henough
      have hle := henough.length_le
      have hcount := henough.count
      omega
  | succ fuel ih =>
      intro level tables v henough h
      cases v with
      | nil | null | bool | num | other =>
          cases h
      | str txt =>
          exact lifted_ne_fuel _ h
      | table address =>
          rw [encode2] at h
          by_cases hnew : address ∈ tables
          · rw [if_pos hnew] at h
            cases h
          rw [if_neg hnew] at h
          by_cases hlt : address < heap.length
          · have hchild := fun v => ih (level + 1) (address :: tables) v (henough.cons hnew hlt)
            rw [encodeTable] at h
            split at h
            · rcases bind_error_iff.1 h with h | ⟨items, -, h⟩
              · rcases encodeItems_fuel h with ⟨v, hv⟩
                exact hchild v hv
              · cases h
            · rcases encodeObject_fuel h with ⟨v, hv⟩
              exact hchild v hv
          · rw [tableAt_of_le (Nat.le_of_not_lt hlt), encodeTable, arrayLength_empty] at h
            have hempty : ∀ encode : Val → Except Failure (List Char),
                encodeArray encode (LuaTable.empty none) 0 = .ok ['[', ']'] := by
              intro encode
              rw [encodeArray, Nat.floor_zero]
              rfl
            exact nomatch (hempty _).symm.trans h

theorem encode_ne_fuel (v : Val) : encode doubles heap indent keyorder v ≠ .error .fuel :=
  encode2_ne_fuel _ _ _ _ ⟨List.nodup_nil, List.forall_mem_nil _, Nat.lt_succ_self _⟩

end Run

end Json
end LuajitTcpServer
