import LuajitTcpServer.Lib.ByteMemory
import LuajitTcpServer.Lib.Numerals
import LuajitTcpServer.SharedMemory.Processes

/-!
# Payload — the counting payload of `AppSharedMemory.lua`

With `useSetData` the server sends `srv-` and the number of the loop, with zeros in front up to the
length of `loopCount`.  `send_data_set(loop)` rewrites only as many bytes as the number has digits,
so the zeros are right as long as no longer number was written before (`shows_of_pairwise`).  The
second big loop starts again from 1 and keeps the first digits of `loopCount`.  From `10 ^ 9` on
`numStringLength` is no longer the number of digits.

`sendData_c` is a row of bytes; an index in front of it is negative.
-/

namespace LuajitTcpServer
namespace SharedMemory
namespace Payload

open ByteMemory Lua

/-- `string.byte` of a character, as `sendData_c` stores it. -/
def byte (c : Char) : UInt8 := UInt8.ofNat c.toNat

section Count

variable (loopCount : Nat)

/-! ## `send_data_set` -/

/-- The server's `sendData`. -/
def sendData : List Char :=
  ['s', 'r', 'v', '-'] ++ List.replicate (tostring loopCount).length '0'

def sendDataLen : Nat := (sendData loopCount).length

/-- `send_data_set(0)`: `util.cstr` ends the text with a zero byte; around it is anything. -/
def sendDataInit (memory : Int → UInt8) : Int → UInt8 :=
  overlay memory 0 ((sendData loopCount ++ ['\x00']).map byte)

/-- The assignments of `send_data_set(loop)`: an index of `sendData_c`, and the digit of `loop`
that goes there, if there is one.  Here `idx` is counted from 0. -/
def assignments (loop : Nat) : List (Int × Option Char) :=
  let loopStr := tostring loop
  let numCount := numStringLength loop
  (List.range numCount).map fun idx : Nat =>
    ((sendDataLen loopCount : Int) - numCount + idx, loopStr[idx]?)

/-- `string.byte` of a missing digit returns nothing, and the assignment fails. -/
def assign (data : Int → UInt8) (assignment : Int × Option Char) : Option (Int → UInt8) :=
  assignment.2.map fun digit => Function.update data assignment.1 (byte digit)

/-- `send_data_set(loop)` for `loop > 0`. -/
def sendDataSet (data : Int → UInt8) (loop : Nat) : Option (Int → UInt8) :=
  (assignments loopCount loop).foldlM assign data

/-- The arguments of `send_data_set` in the big loops of a server. -/
def serverLoops (bigLoops : Nat) : List Nat :=
  (List.replicate bigLoops (List.range' 1 loopCount)).flatten

/-! ## What the payload shows -/

/-- The bytes of `sendData_c` are `srv-` and the number, with zeros in front. -/
def Shows (data : Int → UInt8) (loop : Nat) : Prop :=
  window data 0 (sendDataLen loopCount) =
    (['s', 'r', 'v', '-'] ++ (digits loop).leftpad (tostring loopCount).length '0').map byte

/-- After every call of a server run the payload shows the loop, and the call has written to the
digits only. -/
def AlwaysShows (bigLoops : Nat) (memory : Int → UInt8) : Prop :=
  ∀ (before : List Nat) (loop : Nat), before ++ [loop] <+: serverLoops loopCount bigLoops →
    (∃ data, (before ++ [loop]).foldlM (sendDataSet loopCount) (sendDataInit loopCount memory) =
        some data ∧ Shows loopCount data loop) ∧
      ∀ assignment ∈ assignments loopCount loop,
        4 ≤ assignment.1 ∧ assignment.1 < sendDataLen loopCount

end Count

/-! ## Digits -/

theorem numStringLength_eq {n : Nat} (h : n < 10 ^ 9) : numStringLength n = (digits n).length := by
  have hlength : ∀ k, 10 ^ k ≤ n → n < 10 ^ (k + 1) → k + 1 = (digits n).length :=
    fun k hle hlt => (digits_length_eq hle hlt).symm
  unfold numStringLength
  split_ifs
  · exact Nat.le_antisymm Nat.length_toDigits_pos ((digits_length_le_iff (by decide)).2 (by omega))
  all_goals exact hlength _ (by omega) (by omega)

theorem numStringLength_large {n : Nat} (h : 10 ^ 9 ≤ n) : numStringLength n = 100 := by
  unfold numStringLength
  split_ifs <;> omega

section Calls

variable {loopCount loop m : Nat} {data : Int → UInt8}

theorem sendDataLen_eq : sendDataLen loopCount = 4 + (tostring loopCount).length := by
  simp [sendDataLen, sendData]
  omega

/-! ## One call -/

/-- Assigning the characters of a text to the indexes from `off` on. -/
theorem foldlM_assign (data : Int → UInt8) (off : Int) (txt : List Char) :
    ((List.range txt.length).map fun idx : Nat => (off + idx, txt[idx]?)).foldlM assign data =
      some (overlay data off (txt.map byte)) := by
  induction txt generalizing data off with
  | nil =>
      rfl
  | cons c txt ih =>
      have hrest := ih (Function.update data off (byte c)) (off + 1)
      have hshift : (List.range txt.length).map
          ((fun idx : Nat => (off + (idx : Int), (c :: txt)[idx]?)) ∘ Nat.succ) =
          (List.range txt.length).map fun idx : Nat => (off + 1 + (idx : Int), txt[idx]?) := by
        apply List.map_congr_left
        intro idx _
        have hoff : off + (idx.succ : Int) = off + 1 + idx := by omega
        rw [Function.comp_apply, hoff, List.getElem?_cons_succ]
      have hfirst : assign data (off + (0 : Nat), (c :: txt)[0]?) =
          some (Function.update data off (byte c)) := by
        simp [assign]
      rw [List.length_cons, List.range_succ_eq_map, List.map_cons, List.map_map, hshift,
        List.foldlM_cons, hfirst]
      exact hrest

theorem sendDataSet_eq (hlt : loop < 10 ^ 9) :
    sendDataSet loopCount data loop =
      some (overlay data ((sendDataLen loopCount : Int) - (digits loop).length)
        ((digits loop).map byte)) := by
  rw [sendDataSet, assignments, tostring_natCast (by omega), numStringLength_eq hlt]
  exact foldlM_assign data _ _

theorem foldlM_assign_none {assignments : List (Int × Option Char)}
    (h : ∃ assignment ∈ assignments, assignment.2 = none) : assignments.foldlM assign data = none := by
  induction assignments generalizing data with
  | nil =>
      rcases h with ⟨_, hmem, -⟩
      exact absurd hmem List.not_mem_nil
  | cons first rest ih =>
      rw [List.foldlM_cons]
      cases hfirst : assign data first with
      | none =>
          rfl
      | some data' =>
          apply ih
          rcases h with ⟨assignment, hmem, hnone⟩
          rcases List.mem_cons.1 hmem with rfl | hmem
          · simp [assign, hnone] at hfirst
          · exact ⟨assignment, hmem, hnone⟩

/-- `10 ^ 9` has ten digits, and `send_data_set` looks for a hundred. -/
theorem sendDataSet_billion : sendDataSet loopCount data (10 ^ 9) = none := by
  apply foldlM_assign_none
  have hlength : (digits (10 ^ 9)).length = 10 := digits_length_eq (by decide) (by decide)
  have hmissing : (tostring (10 ^ 9 : Nat))[10]? = none := by
    rw [tostring_natCast (by decide), List.getElem?_eq_none_iff, hlength]
  refine ⟨((sendDataLen loopCount : Int) - numStringLength (10 ^ 9) + (10 : Nat), none), ?_, rfl⟩
  rw [assignments, List.mem_map]
  refine ⟨10, ?_, by rw [hmissing]⟩
  rw [List.mem_range, numStringLength_large (Nat.le_refl _)]
  decide

/-- No call writes in front of the digits when the number is not longer than `loopCount`. -/
theorem assignments_range (hlt : loop < 10 ^ 9)
    (hlength : (digits loop).length ≤ (tostring loopCount).length) :
    ∀ assignment ∈ assignments loopCount loop,
      4 ≤ assignment.1 ∧ assignment.1 < sendDataLen loopCount := by
  intro assignment hmem
  rw [assignments, List.mem_map] at hmem
  rcases hmem with ⟨idx, hidx, rfl⟩
  rw [List.mem_range, numStringLength_eq hlt] at hidx
  rw [numStringLength_eq hlt, sendDataLen_eq]
  simp only
  omega

/-! ## Calls one after the other -/

theorem shows_init (memory : Int → UInt8) : Shows loopCount (sendDataInit loopCount memory) 0 := by
  have hpos : 0 < (tostring loopCount).length := tostring_length_pos loopCount
  have hzeros : (digits 0).leftpad (tostring loopCount).length '0' =
      List.replicate (tostring loopCount).length '0' := by
    have hdigits : digits 0 = ['0'] := rfl
    rw [hdigits, List.leftpad, List.length_singleton, ← List.replicate_succ', Nat.sub_add_cancel hpos]
  have hread := @window_overlay memory 0 ((sendData loopCount ++ ['\x00']).map byte)
  -- the zero byte at the end is not part of the message
  rw [List.length_map, List.length_append, List.length_singleton, window_append, List.map_append]
    at hread
  have hinit : sendDataInit loopCount memory =
      overlay memory 0 ((sendData loopCount).map byte ++ ['\x00'].map byte) := by
    rw [sendDataInit, List.map_append]
  rw [Shows, hzeros, hinit]
  refine (List.append_inj hread ?_).1
  rw [window_length, List.length_map]

theorem Shows.overlay (h : Shows loopCount data m)
    (hmono : (digits m).length ≤ (digits loop).length)
    (hlength : (digits loop).length ≤ (tostring loopCount).length) :
    Shows loopCount (ByteMemory.overlay data
      ((sendDataLen loopCount : Int) - (digits loop).length) ((digits loop).map byte)) loop := by
  generalize hstart : sendDataLen loopCount - (digits loop).length = start
  have hlen := @sendDataLen_eq loopCount
  have hoff : (sendDataLen loopCount : Int) - (digits loop).length = start := by omega
  have hend : sendDataLen loopCount = start + ((digits loop).map byte).length := by
    rw [List.length_map]
    omega
  -- in front of the new digits there are only zeros
  have hzeros : (['s', 'r', 'v', '-'] ++ (digits m).leftpad (tostring loopCount).length '0').take
      start = ['s', 'r', 'v', '-'] ++
        List.replicate ((tostring loopCount).length - (digits loop).length) '0' := by
    have hlong : start = ['s', 'r', 'v', '-'].length +
        ((tostring loopCount).length - (digits loop).length) := by
      simp only [List.length_cons, List.length_nil]
      omega
    rw [hlong, List.take_length_add_append, List.leftpad, List.take_append_of_le_length,
      List.take_replicate, Nat.min_eq_left (by omega)]
    rw [List.length_replicate]
    omega
  rw [Shows, hend] at h
  rw [Shows, hoff, hend, window_overlay_end, h, ← List.map_take, hzeros, ← List.map_append,
    List.append_assoc]
  rfl

/-- `loop` has at least as many digits as `m`. -/
def NoShorter (m loop : Nat) : Prop := (digits m).length ≤ (digits loop).length

/-- As long as no number is shorter than one before, the payload shows the last one. -/
theorem shows_of_pairwise {calls : List Nat} (hlt : loopCount < 10 ^ 9)
    (hle : ∀ loop ∈ calls, loop ≤ loopCount) (hmono : (m :: calls).Pairwise NoShorter)
    (h : Shows loopCount data m) :
    ∃ data', calls.foldlM (sendDataSet loopCount) data = some data' ∧
      Shows loopCount data' (calls.getLastD m) := by
  induction calls generalizing m data with
  | nil =>
      exact ⟨data, rfl, h⟩
  | cons loop calls ih =>
      rcases List.pairwise_cons.1 hmono with ⟨hfirst, hrest⟩
      have hloop : loop ≤ loopCount := hle loop List.mem_cons_self
      have hlength : (digits loop).length ≤ (tostring loopCount).length := by
        rw [tostring_natCast (by omega)]
        exact digits_length_mono hloop
      have hshows := h.overlay (hfirst loop List.mem_cons_self) hlength
      rcases ih (fun loop hmem => hle loop (List.mem_cons_of_mem _ hmem)) hrest hshows with
        ⟨data', hdata', hlast⟩
      refine ⟨data', ?_, ?_⟩
      · rw [List.foldlM_cons, sendDataSet_eq (by omega)]
        exact hdata'
      · rwa [List.getLastD_cons]

theorem mem_serverLoops {bigLoops : Nat} (h : loop ∈ serverLoops loopCount bigLoops) :
    1 ≤ loop ∧ loop ≤ loopCount := by
  rw [serverLoops, List.mem_flatten] at h
  rcases h with ⟨calls, hcalls, hloop⟩
  rw [List.eq_of_mem_replicate hcalls, List.mem_range'_1] at hloop
  omega

theorem alwaysShows_of_pairwise {bigLoops : Nat} (memory : Int → UInt8) (hlt : loopCount < 10 ^ 9)
    (hmono : (serverLoops loopCount bigLoops).Pairwise NoShorter) :
    AlwaysShows loopCount bigLoops memory := by
  intro before loop hbegins
  have hle : ∀ loop' ∈ before ++ [loop], loop' ≤ loopCount :=
    fun loop' hmem => (mem_serverLoops (hbegins.subset hmem)).2
  have hloop : loop ≤ loopCount := hle loop (by simp)
  have hcalls : (0 :: (before ++ [loop])).Pairwise NoShorter :=
    List.pairwise_cons.2 ⟨fun loop' _ => digits_length_mono (Nat.zero_le loop'),
      hmono.sublist hbegins.sublist⟩
  rcases shows_of_pairwise hlt hle hcalls (shows_init memory) with ⟨data, hdata, hlast⟩
  rw [List.getLastD_concat] at hlast
  refine ⟨⟨data, hdata, hlast⟩, assignments_range (by omega) ?_⟩
  rw [tostring_natCast (by omega)]
  exact digits_length_mono hloop

/-! ## Where it goes wrong -/

theorem first_loop_begins {n bigLoops : Nat} (hn : n < loopCount) (hbig : 1 ≤ bigLoops) :
    List.range' 1 n ++ [n + 1] <+: serverLoops loopCount bigLoops := by
  obtain ⟨k, rfl⟩ : ∃ k, loopCount = n + 1 + k := ⟨loopCount - (n + 1), by omega⟩
  obtain ⟨b, rfl⟩ : ∃ b, bigLoops = b + 1 := ⟨bigLoops - 1, by omega⟩
  rw [serverLoops, List.replicate_succ, List.flatten_cons, ← List.range'_append_1,
    List.range'_1_concat, Nat.add_comm 1 n, List.append_assoc _ _ (List.flatten _)]
  exact List.prefix_append _ _

/-- The first call of the second big loop. -/
theorem second_loop_begins {bigLoops : Nat} (hpos : 1 ≤ loopCount) (hbig : 2 ≤ bigLoops) :
    List.range' 1 loopCount ++ [1] <+: serverLoops loopCount bigLoops := by
  obtain ⟨k, rfl⟩ : ∃ k, loopCount = k + 1 := ⟨loopCount - 1, by omega⟩
  obtain ⟨b, rfl⟩ : ∃ b, bigLoops = b + 2 := ⟨bigLoops - 2, by omega⟩
  rw [serverLoops, List.replicate_succ, List.flatten_cons, List.prefix_append_right_inj,
    List.replicate_succ, List.flatten_cons, List.range'_succ]
  exact ⟨_, rfl⟩

theorem foldlM_concat {before : List Nat} {data₀ : Int → UInt8} :
    (before ++ [loop]).foldlM (sendDataSet loopCount) data₀ =
      (before.foldlM (sendDataSet loopCount) data₀).bind fun data =>
        sendDataSet loopCount data loop := by
  rw [List.foldlM_append]
  cases before.foldlM (sendDataSet loopCount) data₀ with
  | none =>
      rfl
  | some data =>
      simp

theorem not_alwaysShows_of_billion {bigLoops : Nat} (memory : Int → UInt8)
    (hcount : 10 ^ 9 ≤ loopCount) (hbig : 1 ≤ bigLoops) :
    ¬ AlwaysShows loopCount bigLoops memory := by
  intro hshows
  obtain ⟨n, hn⟩ : ∃ n, n + 1 = 10 ^ 9 := ⟨10 ^ 9 - 1, rfl⟩
  rcases (hshows _ _ (@first_loop_begins loopCount n bigLoops (by omega) hbig)).1 with
    ⟨data, hdata, -⟩
  rw [hn, foldlM_concat] at hdata
  rcases Option.bind_eq_some_iff.1 hdata with ⟨data', -, hset⟩
  rw [sendDataSet_billion] at hset
  exact absurd hset (Option.some_ne_none _).symm

/-- The first digit, or the first zero in front, stands behind `srv-`. -/
theorem Shows.first (h : Shows loopCount data loop) {c : Char} {rest : List Char}
    (hfirst : (digits loop).leftpad (tostring loopCount).length '0' = c :: rest) :
    data 4 = byte c := by
  rw [Shows, hfirst, List.map_append, List.map_cons] at h
  have hlen := @sendDataLen_eq loopCount
  have hpos : 0 < (tostring loopCount).length := tostring_length_pos loopCount
  obtain ⟨k, hk⟩ : ∃ k, sendDataLen loopCount = 4 + (k + 1) :=
    ⟨(tostring loopCount).length - 1, by omega⟩
  rw [hk, window_append] at h
  have hnumber := (List.append_inj h (by rw [window_length]; rfl)).2
  exact (List.cons.inj hnumber).1

theorem byte_digit_inj {c : Char} (hc : c.isDigit) (h : byte c = byte '0') : c = '0' := by
  rcases exists_digitChar hc with ⟨d, hd, rfl⟩
  revert h
  revert d
  decide

/-- The number 1 does not overwrite the first digit of a longer one. -/
theorem Shows.not_one {data' : Int → UInt8} (h : Shows loopCount data loopCount)
    (hten : 10 ≤ loopCount) (hlt : loopCount < 10 ^ 9)
    (hset : sendDataSet loopCount data 1 = some data') : ¬ Shows loopCount data' 1 := by
  intro hone
  have hlong : ¬ (digits loopCount).length ≤ 1 := by
    intro hshort
    exact absurd ((digits_length_le_iff (by decide)).1 hshort) (by omega)
  have hlength : (tostring loopCount).length = (digits loopCount).length := by
    rw [tostring_natCast (by omega)]
  have hlen := @sendDataLen_eq loopCount
  have hdigits : digits 1 = ['1'] := rfl
  cases hcount : digits loopCount with
  | nil =>
      exact absurd hcount (digits_ne_nil loopCount)
  | cons c rest =>
      have hbefore : data 4 = byte c := by
        apply h.first
        rw [hlength, List.leftpad, Nat.sub_self, hcount]
        rfl
      have hafter : data' 4 = byte '0' := by
        obtain ⟨k, hk⟩ : ∃ k, (tostring loopCount).length - 1 = k + 1 :=
          ⟨(tostring loopCount).length - 2, by omega⟩
        apply hone.first
        rw [hdigits, List.leftpad, List.length_singleton, hk, List.replicate_succ]
        rfl
      have hsame : data' 4 = data 4 := by
        rw [sendDataSet_eq (by decide)] at hset
        cases hset
        rw [hdigits, List.length_singleton]
        exact overlay_of_lt (by omega)
      -- the first digit of a number is not a zero
      have hzero : c = '0' := by
        apply byte_digit_inj
        · exact isDigit_of_mem_digits (n := loopCount) (by rw [hcount]; exact List.mem_cons_self)
        · rw [← hbefore, ← hsame, hafter]
      refine digits_head_ne_zero (n := loopCount) (by omega) ?_
      rw [hcount, hzero, List.head?_cons]

theorem not_alwaysShows_of_again {bigLoops : Nat} (memory : Int → UInt8) (hten : 10 ≤ loopCount)
    (hlt : loopCount < 10 ^ 9) (hbig : 2 ≤ bigLoops) :
    ¬ AlwaysShows loopCount bigLoops memory := by
  intro hshows
  have hcalls : (0 :: List.range' 1 loopCount).Pairwise NoShorter :=
    List.pairwise_cons.2 ⟨fun loop' _ => digits_length_mono (Nat.zero_le loop'),
      (List.pairwise_le_range' 1).imp digits_length_mono⟩
  have hle : ∀ loop ∈ List.range' 1 loopCount, loop ≤ loopCount := by
    intro loop hmem
    rw [List.mem_range'_1] at hmem
    omega
  have hend : (List.range' 1 loopCount).getLastD 0 = loopCount := by
    obtain ⟨k, rfl⟩ : ∃ k, loopCount = k + 1 := ⟨loopCount - 1, by omega⟩
    rw [List.range'_1_concat, List.getLastD_concat, Nat.add_comm]
  -- the first big loop ends with `loopCount`, the second one begins with 1
  rcases shows_of_pairwise hlt hle hcalls (shows_init memory) with ⟨data, hdata, hlast⟩
  rw [hend] at hlast
  rcases (hshows _ _ (@second_loop_begins loopCount bigLoops (by omega) hbig)).1 with
    ⟨data', hdata', hone⟩
  rw [foldlM_concat, hdata] at hdata'
  exact hlast.not_one hten hlt hdata' hone

/-- The payload always shows the current loop, unless the count starts again with more than one
digit or reaches the number of digits that `numStringLength` does not know. -/
theorem alwaysShows_iff (loopCount bigLoops : Nat) (memory : Int → UInt8) (hcount : 1 ≤ loopCount)
    (hbig : 1 ≤ bigLoops) :
    AlwaysShows loopCount bigLoops memory ↔
      loopCount < 10 ^ 9 ∧ (bigLoops = 1 ∨ loopCount < 10) := by
  constructor
  · intro hshows
    have hlt : loopCount < 10 ^ 9 := by
      by_contra hlarge
      exact not_alwaysShows_of_billion memory (by omega) hbig hshows
    refine ⟨hlt, ?_⟩
    by_contra hagain
    exact not_alwaysShows_of_again memory (by omega) hlt (by omega) hshows
  · rintro ⟨hlt, rfl | hten⟩
    · apply alwaysShows_of_pairwise memory hlt
      have hone : serverLoops loopCount 1 = List.range' 1 loopCount := by simp [serverLoops]
      rw [hone]
      exact (List.pairwise_le_range' 1).imp digits_length_mono
    · apply alwaysShows_of_pairwise memory hlt
      -- all numbers have one digit
      have hlength : ∀ loop ∈ serverLoops loopCount bigLoops, (digits loop).length ≤ 1 := by
        intro loop hmem
        have hloop := mem_serverLoops hmem
        exact (digits_length_le_iff (by decide)).2 (by omega)
      exact List.pairwise_of_forall_mem_list fun m hm loop _ =>
        Nat.le_trans (hlength m hm) Nat.length_toDigits_pos

/-- A thousand loops, once. -/
theorem alwaysShows_iff_thousand :
    AlwaysShows 1000 1 (fun _ => 0) ↔ 1000 < 10 ^ 9 ∧ (1 = 1 ∨ 1000 < 10) :=
  alwaysShows_iff 1000 1 (fun _ => 0) (by decide) (by decide)

/-- Ten loops, twice: the eleventh call leaves `srv-11`. -/
theorem not_alwaysShows_ten : ¬ AlwaysShows 10 2 (fun _ => 0) :=
  not_alwaysShows_of_again (fun _ => 0) (by decide) (by decide) (by decide)

end Calls

end Payload
end SharedMemory
end LuajitTcpServer
