import Mathlib.Data.List.Nodup
import Mathlib.Data.List.Perm.Basic
import LuajitTcpServer.Json.RoundTrip

/-!
# Rewriting — a value that was read is written again

A value that is read for a tree unfolds to this tree again, up to the order of the pairs in its
objects, which `pairs` chooses (`encode_decode`).  A tree that lasts has no key twice, numbers that
are written as they were read, `null` only where it is not read as `nil`, and no object whose only
key is `n` with a number: `isarray` takes that one for the length of an array.
-/

namespace LuajitTcpServer
namespace Json

open Lua JsonText

/-! ## Trees -/

/-- Trees that differ in the order of the pairs of their objects. -/
inductive Same : Tree → Tree → Prop
  | null : Same .null .null
  | bool (b : Bool) : Same (.bool b) (.bool b)
  | num (q : ℚ) : Same (.num q) (.num q)
  | str (txt : List Char) : Same (.str txt) (.str txt)
  | arr {items items' : List Tree} (hcount : items.length = items'.length)
      (h : ∀ i (hi : i < items.length), Same items[i] items'[i]) : Same (.arr items) (.arr items')
  | obj {pairs pairs' pairs'' : List (List Char × Tree)} (hcount : pairs.length = pairs'.length)
      (hkey : ∀ i (hi : i < pairs.length), pairs[i].1 = pairs'[i].1)
      (h : ∀ i (hi : i < pairs.length), Same pairs[i].2 pairs'[i].2) (hperm : pairs''.Perm pairs') :
      Same (.obj pairs) (.obj pairs'')

/-- Trees that are not changed when they are read and written. -/
inductive Lasting (doubles : Doubles) (nullval : Val) : Tree → Prop
  | null (h : nullval = .null) : Lasting doubles nullval .null
  | bool (b : Bool) : Lasting doubles nullval (.bool b)
  | num {q : ℚ} (h : (doubles.numeral (doubles.nearest q)).value = q) :
      Lasting doubles nullval (.num q)
  | str (txt : List Char) : Lasting doubles nullval (.str txt)
  | arr {items : List Tree} (h : ∀ i (hi : i < items.length), Lasting doubles nullval items[i]) :
      Lasting doubles nullval (.arr items)
  | obj {pairs : List (List Char × Tree)} (hkeys : (pairs.map Prod.fst).Nodup)
      (hlength : ∀ q, pairs ≠ [(['n'], .num q)])
      (h : ∀ i (hi : i < pairs.length), Lasting doubles nullval pairs[i].2) :
      Lasting doubles nullval (.obj pairs)

/-! ## The entries of a table -/

section Entries

theorem LuaTable.mem_keys (tbl : LuaTable) (k : Val) :
    k ∈ tbl.entries.map Prod.fst ↔ tbl.get k ≠ .nil := by
  constructor
  · intro h
    rcases List.mem_map.1 h with ⟨⟨k, v⟩, he, rfl⟩
    rw [tbl.get_eq he]
    exact (tbl.present _ he).2
  · intro h
    exact List.mem_map.2 ⟨_, tbl.mem_entries h, rfl⟩

variable {tbl : LuaTable} {vs : List Val} {keys : List (List Char)} {metatable : Option Meta}

theorem IsArray.keys_perm (h : IsArray metatable vs tbl) (hvs : ∀ v ∈ vs, v ≠ .nil) :
    (tbl.entries.map Prod.fst).Perm
      ((List.range vs.length).map fun i => Val.num (i + 1 : Nat)) := by
  have hinjective : Function.Injective fun i : Nat => Val.num (i + 1 : Nat) := by
    intro i j hij
    have hnat : i + 1 = j + 1 := by exact_mod_cast Val.num.inj hij
    exact Nat.succ.inj hnat
  -- neither side has a key twice, so it is enough that they have the same keys
  rw [List.perm_ext_iff_of_nodup tbl.distinct (List.nodup_range.map hinjective)]
  intro k
  rw [tbl.mem_keys, List.mem_map]
  constructor
  · intro hk
    by_contra hnone
    refine hk (h.other k fun i hi hki => hnone ⟨i, List.mem_range.2 hi, hki.symm⟩)
  · -- no element is `nil`, so each has an entry
    rintro ⟨i, hi, rfl⟩
    rw [h.element i (List.mem_range.1 hi)]
    exact hvs _ (List.getElem_mem _)

theorem IsObject.str_key (h : IsObject metatable keys vs tbl) {e : Entry} (he : e ∈ tbl.entries) :
    ∃ key ∈ keys, e.1 = .str key := by
  by_contra hnone
  have hnil := h.other e.1 fun key hkey hek => hnone ⟨key, hkey, hek⟩
  rw [tbl.get_eq he] at hnil
  exact (tbl.present e he).2 hnil

/-- Without a key twice and a value `nil`, the entries are the pairs. -/
theorem IsObject.entries_perm (h : IsObject metatable keys vs tbl) (hkeys : keys.Nodup)
    (hcount : vs.length = keys.length) (hvs : ∀ v ∈ vs, v ≠ .nil) :
    tbl.entries.Perm ((keys.map Val.str).zip vs) := by
  have hinjective : Function.Injective Val.str := fun _ _ hij => Val.str.inj hij
  have hfst : ((keys.map Val.str).zip vs).map Prod.fst = keys.map Val.str :=
    List.map_fst_zip (by rw [List.length_map, hcount])
  have hnodup : ((keys.map Val.str).zip vs).Nodup := by
    refine List.Nodup.of_map Prod.fst ?_
    rw [hfst]
    exact hkeys.map hinjective
  have hlast : ∀ i (hi : i < keys.length) (hi' : i < vs.length), tbl.get (.str keys[i]) = vs[i] := by
    intro i hi hi'
    refine h.last i hi hi' fun hmem => ?_
    rcases List.getElem_of_mem hmem with ⟨j, hj, hij⟩
    rw [List.getElem_drop, hkeys.getElem_inj_iff] at hij
    omega
  rw [List.perm_ext_iff_of_nodup (List.Nodup.of_map Prod.fst tbl.distinct) hnodup]
  intro e
  constructor
  · intro he
    rcases h.str_key he with ⟨key, hkey, hek⟩
    rcases List.getElem_of_mem hkey with ⟨i, hi, rfl⟩
    have hi' : i < vs.length := hcount ▸ hi
    have hvalue := tbl.get_eq he
    rw [hek, hlast i hi hi'] at hvalue
    have hzip : i < ((keys.map Val.str).zip vs).length := by simp [hi, hi']
    have hpair : ((keys.map Val.str).zip vs)[i] = e := by
      rw [List.getElem_zip, List.getElem_map]
      exact Prod.ext hek.symm hvalue
    exact hpair ▸ List.getElem_mem hzip
  · intro he
    rcases List.getElem_of_mem he with ⟨i, hi, rfl⟩
    have hlengths : i < keys.length ∧ i < vs.length := by
      simpa using hi
    rw [List.getElem_zip, List.getElem_map, ← hlast i hlengths.1 hlengths.2]
    refine tbl.mem_entries ?_
    rw [hlast i hlengths.1 hlengths.2]
    exact hvs _ (List.getElem_mem _)

/-! ## Arrays and objects -/

/-- The numbers from 1 on are counted, and the largest is kept. -/
theorem scanEntries_numbers {entries : List Entry} (s : ArrayScan)
    (h : ∀ e ∈ entries, ∃ i : Nat, e.1 = .num (i + 1 : Nat)) :
    ∃ largest, entries.foldlM scanEntry s = some ⟨largest, s.n + entries.length, s.arraylen⟩ ∧
      s.max ≤ largest ∧
      (∀ i : Nat, Val.num (i + 1 : Nat) ∈ entries.map Prod.fst → ((i + 1 : Nat) : ℚ) ≤ largest) ∧
      ∀ bound, s.max ≤ bound →
        (∀ i : Nat, Val.num (i + 1 : Nat) ∈ entries.map Prod.fst → ((i + 1 : Nat) : ℚ) ≤ bound) →
        largest ≤ bound := by
  induction entries generalizing s with
  | nil =>
      exact ⟨s.max, rfl, le_refl _, (fun _ h => absurd h List.not_mem_nil), fun _ hbound _ => hbound⟩
  | cons e entries ih =>
      rcases e with ⟨k, v⟩
      rcases h _ List.mem_cons_self with ⟨i, hi⟩
      dsimp only at hi
      subst hi
      have hentry : scanEntry s (.num (i + 1 : Nat), v) =
          some ⟨max s.max (i + 1 : Nat), s.n + 1, s.arraylen⟩ := by
        have hsmall : ¬ (((i + 1 : Nat) : ℚ) < 1 ∨ (⌊((i + 1 : Nat) : ℚ)⌋ : ℚ) ≠ (i + 1 : Nat)) := by
          rw [Int.floor_natCast, not_or, not_lt, not_not]
          exact ⟨by exact_mod_cast Nat.le_add_left 1 i, by norm_cast⟩
        rw [scanEntry, if_neg hsmall, max_def]
        split_ifs with hlt hle hle
        · rfl
        · exact absurd hlt.le hle
        · rw [le_antisymm hle (not_lt.1 hlt)]
        · rfl
      rcases ih ⟨max s.max (i + 1 : Nat), s.n + 1, s.arraylen⟩
        fun e he => h e (List.mem_cons_of_mem _ he) with ⟨largest, hrun, hmax, hupper, hleast⟩
      refine ⟨largest, ?_, (le_max_left _ _).trans hmax, ?_, ?_⟩
      · rw [List.foldlM_cons, hentry, Option.bind_eq_bind, Option.bind_some, hrun, List.length_cons]
        congr 2
        exact Nat.add_right_comm s.n 1 entries.length
      · intro j hj
        rcases List.mem_cons.1 hj with hj | hj
        · rw [Val.num.inj hj]
          exact (le_max_right _ _).trans hmax
        · exact hupper j hj
      · intro bound hbound hkeys
        exact hleast bound (max_le hbound (hkeys i List.mem_cons_self))
          fun j hj => hkeys j (List.mem_cons_of_mem _ hj)

/-- The table of an array without `nil` has its length. -/
theorem IsArray.arrayLength_eq (h : IsArray (optionalmetatables .array) vs tbl)
    (hvs : ∀ v ∈ vs, v ≠ .nil) : arrayLength tbl = some (vs.length : ℚ) := by
  have hperm := h.keys_perm hvs
  have hlength := hperm.length_eq
  rw [List.length_map, List.length_map, List.length_range] at hlength
  have hkey : ∀ i : Nat, Val.num (i + 1 : Nat) ∈ tbl.entries.map Prod.fst ↔ i < vs.length := by
    intro i
    rw [hperm.mem_iff, List.mem_map]
    constructor
    · rintro ⟨j, hj, hij⟩
      have hnat : j + 1 = i + 1 := by exact_mod_cast Val.num.inj hij
      rw [← Nat.succ.inj hnat]
      exact List.mem_range.1 hj
    · intro hi
      exact ⟨i, List.mem_range.2 hi, rfl⟩
  have hnumbers : ∀ e ∈ tbl.entries, ∃ i : Nat, e.1 = .num (i + 1 : Nat) := by
    intro e he
    rcases List.mem_map.1 (hperm.mem_iff.1 (List.mem_map.2 ⟨e, he, rfl⟩)) with ⟨i, -, hi⟩
    exact ⟨i, hi.symm⟩
  rcases scanEntries_numbers ⟨0, 0, 0⟩ hnumbers with ⟨largest, hrun, hmax, hupper, hleast⟩
  -- the largest key is the number of the keys: there are no holes
  have hlargest : largest = vs.length := by
    refine le_antisymm (hleast _ (Nat.cast_nonneg _) fun i hi => ?_) ?_
    · exact_mod_cast (hkey i).1 hi
    · rcases Nat.eq_zero_or_pos vs.length with hnone | hpos
      · rw [hnone]
        exact_mod_cast hmax
      · have hlast := hupper (vs.length - 1) ((hkey _).2 (Nat.sub_lt hpos Nat.one_pos))
        rwa [Nat.sub_add_cancel hpos] at hlast
  have hdense : ¬ ((vs.length : ℚ) > 10 ∧ (vs.length : ℚ) > 0 ∧
      (vs.length : ℚ) > ((0 + vs.length : Nat) : ℚ) * 2) := by
    rintro ⟨-, hpos, hholes⟩
    rw [Nat.zero_add] at hholes
    linarith
  have hisarray : isarray tbl = some (vs.length : ℚ) := by
    rw [isarray, hrun, hlargest, hlength]
    exact if_neg hdense
  rw [arrayLength, hisarray, h.metatable_eq]
  have harray : (optionalmetatables .array).bind (·.jsontype) ≠ some .object := by decide
  exact if_neg fun hzero => harray hzero.2

theorem foldlM_none {α σ : Type} {f : σ → α → Option σ} {l : List α} {a : α} (ha : a ∈ l)
    (hf : ∀ s, f s a = none) (s : σ) : l.foldlM f s = none := by
  induction l generalizing s with
  | nil =>
      cases ha
  | cons b l ih =>
      rw [List.foldlM_cons]
      rcases List.mem_cons.1 ha with rfl | ha
      · rw [hf]
        rfl
      · cases f s b with
        | none =>
            rfl
        | some s' =>
            exact ih ha s'

/-- The table of an object is no array, unless its only entry says that it is one. -/
theorem IsObject.arrayLength_eq (h : IsObject (optionalmetatables .object) keys vs tbl)
    (hlength : ∀ q, tbl.entries ≠ [(.str ['n'], .num q)]) : arrayLength tbl = none := by
  by_cases hstop : ∃ e ∈ tbl.entries, ∀ s, scanEntry s e = none
  · rcases hstop with ⟨e, he, hnone⟩
    rw [arrayLength, isarray, foldlM_none he hnone]
  · -- every entry is the length `n`, and there is one at most
    have honly : ∀ e ∈ tbl.entries, ∃ q, e = (.str ['n'], .num q) := by
      intro e he
      rcases h.str_key he with ⟨key, -, hkey⟩
      rcases e with ⟨k, v⟩
      dsimp only at hkey
      subst hkey
      by_contra hother
      refine hstop ⟨_, he, fun s => ?_⟩
      unfold scanEntry
      split
      · rename_i q heq
        exact absurd ⟨q, heq⟩ hother
      · rename_i heq
        cases heq
      · rfl
    have hempty : tbl.entries = [] := by
      cases hentries : tbl.entries with
      | nil =>
          rfl
      | cons e entries =>
          rcases honly e (by rw [hentries]; exact List.mem_cons_self) with ⟨q, rfl⟩
          cases entries with
          | nil =>
              exact absurd hentries (hlength q)
          | cons e' entries =>
              have hdistinct := tbl.distinct
              rcases honly e' (by rw [hentries]; simp) with ⟨q', rfl⟩
              rw [hentries] at hdistinct
              simp at hdistinct
    -- an empty table is an array for `isarray`, and its metatable decides
    have hisarray : isarray tbl = some 0 := by
      rw [isarray, hempty]
      rfl
    rw [arrayLength, hisarray, h.metatable_eq]
    rfl

end Entries

/-! ## What is written again -/

section Again

variable {doubles : Doubles} {nullval : Val} {heap : Heap} {keyorder : Option (List Val)}

theorem Decoded.ne_nil {v : Val} {t : Tree}
    (h : Decoded doubles nullval optionalmetatables heap v t) (hlasting : Lasting doubles nullval t) :
    v ≠ .nil := by
  cases h with
  | null =>
      cases hlasting with
      | null hnull =>
          rw [hnull]
          intro h
          cases h
  | _ =>
      intro h
      cases h

theorem Val.ne_nil_of_isTrue {v : Val} (h : v.isTrue) : v ≠ .nil := by
  rintro rfl
  cases h

/-- Without a key twice, the order only moves the entries. -/
theorem entriesInOrder_perm {tbl : LuaTable} (h : (orderOf keyorder tbl).Nodup) :
    (entriesInOrder keyorder tbl).Perm tbl.entries := by
  have hinjective : Function.Injective fun key : Val => (key, tbl.get key) :=
    fun _ _ heq => (Prod.mk.inj heq).1
  generalize hfirst : ((orderOf keyorder tbl).filter fun key => (tbl.get key).isTrue) = first
  have hnodup : first.Nodup := hfirst ▸ h.filter _
  have hordered : (first.map fun key => (key, tbl.get key)).Perm
      (tbl.entries.filter fun e => e.1 ∈ first) := by
    rw [List.perm_ext_iff_of_nodup (hnodup.map hinjective)
      ((List.Nodup.of_map Prod.fst tbl.distinct).filter _)]
    intro e
    rw [List.mem_map, List.mem_filter, decide_eq_true_iff]
    constructor
    · rintro ⟨key, hkey, rfl⟩
      have htrue : (tbl.get key).isTrue = true := by
        rw [← hfirst] at hkey
        exact (List.mem_filter.1 hkey).2
      exact ⟨tbl.mem_entries (Val.ne_nil_of_isTrue htrue), hkey⟩
    · rintro ⟨he, hkey⟩
      exact ⟨e.1, hkey, Prod.ext rfl (tbl.get_eq he)⟩
  -- what is not in the order keeps its place
  have hsplit : (entriesInOrder keyorder tbl) = (first.map fun key => (key, tbl.get key)) ++
      tbl.entries.filter fun e => !decide (e.1 ∈ first) := by
    rw [entriesInOrder, hfirst]
    congr 2
    funext e
    exact decide_not
  rw [hsplit]
  exact (hordered.append_right _).trans (List.filter_append_perm _ _)

theorem tableAt_eq {address : Nat} {tbl : LuaTable} (h : heap[address]? = some tbl) :
    heap.tableAt address = tbl := by
  rw [Heap.tableAt, List.getD_eq_getElem?_getD, h]
  rfl

theorem single_pair {pairs : List (List Char × Tree)} {vs : List Val} {key : List Char} {v : Val}
    (hcount : vs.length = pairs.length)
    (h : ((pairs.map Prod.fst).map Val.str).zip vs = [(.str key, v)]) :
    ∃ t, pairs = [(key, t)] ∧ vs = [v] := by
  cases pairs with
  | nil =>
      cases h
  | cons pair pairs =>
      cases vs with
      | nil =>
          cases hcount
      | cons v' vs =>
          rcases List.cons_eq_cons.1 h with ⟨hpair, hrest⟩
          have hlength := congrArg List.length hrest
          have hvs : vs.length = pairs.length := Nat.succ.inj hcount
          have hnone : pairs = [] := List.eq_nil_of_length_eq_zero (by simpa [hvs] using hlength)
          subst hnone
          rw [List.eq_nil_of_length_eq_zero hvs]
          rcases Prod.mk.inj hpair with ⟨hkey, rfl⟩
          exact ⟨pair.2, by rw [← Val.str.inj hkey], rfl⟩

/-- A value that was read for a tree that lasts unfolds to this tree. -/
theorem Decoded.shows {v : Val} {t : Tree}
    (h : Decoded doubles nullval optionalmetatables heap v t) (hlasting : Lasting doubles nullval t)
    (horder : (keyorder.getD []).Nodup) : ∃ t', Shows doubles heap keyorder v t' ∧ Same t t' := by
  induction h with
  | null =>
      cases hlasting with
      | null hnull =>
          rw [hnull]
          exact ⟨_, Shows.null, Same.null⟩
  | bool b =>
      exact ⟨_, Shows.bool b, Same.bool b⟩
  | num q =>
      cases hlasting with
      | num hq =>
          refine ⟨_, Shows.num _, ?_⟩
          rw [hq]
          exact Same.num q
  | str txt =>
      exact ⟨_, Shows.str txt, Same.str txt⟩
  | @arr address items vs tbl hcount h htable harray ih =>
      cases hlasting with
      | arr hitems =>
          have hvs : ∀ v ∈ vs, v ≠ .nil := List.forall_mem_iff_forall_getElem.2 fun i hi =>
            (h i (hcount ▸ hi)).ne_nil (hitems i (hcount ▸ hi))
          have htrees : ∀ i (hi : i < vs.length) (hi' : i < items.length), ∃ t',
              Shows doubles heap keyorder vs[i] t' ∧ Same items[i] t' :=
            fun i hi hi' => ih i hi' (hitems i hi')
          rcases forall₂_common hcount htrees with ⟨items', hshown, hsame⟩
          have hcount' : items.length = items'.length := hsame.length_eq
          refine ⟨.arr items', ?_, Same.arr hcount' fun i hi => hsame.get hi (hcount' ▸ hi)⟩
          refine Shows.arr ?_ fun i hi => ?_
          · rw [tableAt_eq htable, harray.arrayLength_eq hvs, hshown.length_eq]
          · have hi' : i < vs.length := hshown.length_eq ▸ hi
            rw [tableAt_eq htable, harray.element i hi']
            exact hshown.get hi' hi
  | @obj address pairs vs tbl hcount h htable hobject ih =>
      cases hlasting with
      | obj hkeys hlength hpairs =>
          have hvs : ∀ v ∈ vs, v ≠ .nil := List.forall_mem_iff_forall_getElem.2 fun i hi =>
            (h i (hcount ▸ hi)).ne_nil (hpairs i (hcount ▸ hi))
          have hentries := hobject.entries_perm hkeys (by rw [hcount, List.length_map]) hvs
          have hordered : (orderOf keyorder tbl).Nodup := by
            rw [orderOf, hobject.metatable_eq]
            exact horder
          have hperm := (entriesInOrder_perm hordered).trans hentries
          -- the trees in the order of the text, and from there in the order of the entries
          have hzip : (((pairs.map Prod.fst).map Val.str).zip vs).length = pairs.length := by
            simp [hcount]
          have htrees : ∀ i (hi : i < (((pairs.map Prod.fst).map Val.str).zip vs).length)
              (hi' : i < pairs.length), ∃ pair : List Char × Tree,
              (keyText doubles (((pairs.map Prod.fst).map Val.str).zip vs)[i].1 = some pair.1 ∧
                Shows doubles heap keyorder (((pairs.map Prod.fst).map Val.str).zip vs)[i].2 pair.2) ∧
              pairs[i].1 = pair.1 ∧ Same pairs[i].2 pair.2 := by
            intro i hi hi'
            rcases ih i hi' (hpairs i hi') with ⟨t', hshows, hsame⟩
            refine ⟨(pairs[i].1, t'), ⟨?_, ?_⟩, rfl, hsame⟩
            · rw [List.getElem_zip, List.getElem_map, List.getElem_map]
              rfl
            · rw [List.getElem_zip]
              exact hshows
          rcases @forall₂_common _ _ _ (fun (e : Entry) (pair : List Char × Tree) =>
            keyText doubles e.1 = some pair.1 ∧ Shows doubles heap keyorder e.2 pair.2)
            (fun pair pair' => pair.1 = pair'.1 ∧ Same pair.2 pair'.2) _ _ hzip htrees
            with ⟨pairs', hshown, hsame⟩
          rcases List.perm_comp_forall₂ hperm hshown with ⟨pairs'', hshown', hperm'⟩
          have hcount' : pairs.length = pairs'.length := hsame.length_eq
          have hnone : arrayLength tbl = none := by
            refine hobject.arrayLength_eq fun q hq => ?_
            rw [hq] at hentries
            -- the only pair has the key `n` and a number, which the tree does not allow
            rcases single_pair hcount (List.singleton_perm.1 hentries).symm with ⟨t, rfl, rfl⟩
            have hlast : Lasting doubles nullval t := hpairs 0 Nat.one_pos
            have hread : Decoded doubles nullval optionalmetatables heap (.num q) t :=
              h 0 Nat.one_pos
            cases hread with
            | null =>
                cases hlast with
                | null hnull =>
                    cases hnull
            | num q =>
                exact hlength q rfl
          refine ⟨.obj pairs'', ?_, Same.obj hcount' (fun i hi => (hsame.get hi (hcount' ▸ hi)).1)
            (fun i hi => (hsame.get hi (hcount' ▸ hi)).2) hperm'⟩
          refine shows_obj ?_ ?_
          · rw [tableAt_eq htable, hnone]
          · rw [tableAt_eq htable]
            exact hshown'

-- an object whose only key is `n` does not last
example : ((decode wholeDoubles .nil optionalmetatables "\x7b\"n\":2\x7d".toList [] 1).bind
    fun scanned => encode wholeDoubles scanned.1 false none scanned.2.1) =
    .ok "[null,null]".toList := by
  decide +kernel

end Again

end Json
end LuajitTcpServer
