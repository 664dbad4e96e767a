import LuajitTcpServer.Json.Strings
import LuajitTcpServer.Lib.JsonText

/-!
# Quoting — what `quotestring` writes is read back

`scanstring` takes apart every string of JSON (`scanstring_text`).  The first substitution of
`quotestring` makes such a string of any text; each of the others replaces a character of several
bytes by its escape (`Sequence`) and keeps what the string stands for (`quotestring_text`).
-/

namespace LuajitTcpServer
namespace Json

open Lua Loops JsonText

/-! ## Hexadecimal digits -/

theorem hex4_eq {n : Nat} (h : n ≤ 0xffff) :
    hex4 n = [Nat.digitChar (n / 0x1000), Nat.digitChar (n / 0x100 % 16),
      Nat.digitChar (n / 0x10 % 16), Nat.digitChar (n % 16)] := by
  have hzero : Nat.digitChar 0 = '0' := rfl
  have hstep : ∀ m, Nat.toDigits 16 m =
      if m < 16 then [Nat.digitChar m] else Nat.toDigits 16 (m / 16) ++ [Nat.digitChar (m % 16)] :=
    fun m => Nat.toDigits_eq_if (by decide)
  by_cases h1 : n < 16
  · rw [hex4, hstep n, if_pos h1, show n / 0x1000 = 0 by omega, show n / 0x100 % 16 = 0 by omega,
      show n / 0x10 % 16 = 0 by omega, show n % 16 = n by omega, hzero]
    rfl
  · by_cases h2 : n < 0x100
    · rw [hex4, hstep n, if_neg h1, hstep (n / 16), if_pos (by omega),
        show n / 0x1000 = 0 by omega, show n / 0x100 % 16 = 0 by omega,
        show n / 0x10 % 16 = n / 16 by omega, hzero]
      rfl
    · by_cases h3 : n < 0x1000
      · rw [hex4, hstep n, if_neg h1, hstep (n / 16), if_neg (by omega), hstep (n / 16 / 16),
          if_pos (by omega), show n / 0x1000 = 0 by omega,
          show n / 0x100 % 16 = n / 16 / 16 by omega, hzero]
        rfl
      · rw [hex4, hstep n, if_neg h1, hstep (n / 16), if_neg (by omega), hstep (n / 16 / 16),
          if_neg (by omega), hstep (n / 16 / 16 / 16), if_pos (by omega),
          show n / 16 / 16 / 16 = n / 0x1000 by omega, show n / 16 / 16 = n / 0x100 by omega]
        rfl

theorem hex4_unit {n : Nat} (h : n ≤ 0xffff) : CodeUnit (hex4 n) n := by
  have hdigit : ∀ d < 16, isDigitOf 16 (Nat.digitChar d) = true ∧ digitValue (Nat.digitChar d) = d :=
    by decide
  rw [hex4_eq h]
  refine ⟨rfl, ?_, ?_⟩
  · simp only [List.forall_mem_cons]
    exact ⟨(hdigit _ (by omega)).1, (hdigit _ (by omega)).1, (hdigit _ (by omega)).1,
      (hdigit _ (by omega)).1, fun d hd => nomatch hd⟩
  · simp only [ofDigits, List.foldl_cons, List.foldl_nil, (hdigit _ (show n / 0x1000 < 16 by omega)).2,
      (hdigit _ (show n / 0x100 % 16 < 16 by omega)).2,
      (hdigit _ (show n / 0x10 % 16 < 16 by omega)).2, (hdigit _ (show n % 16 < 16 by omega)).2]
    omega

theorem tonumber16_unit {digits : List Char} {value : Nat} (h : CodeUnit digits value) :
    tonumber16 digits = some (value : Int) := by
  rcases h with ⟨hlength, hhex, hvalue⟩
  have hnonzero : ∀ d ∈ digits, (decide (d ≠ '\x00')) = true := fun d hd => by
    simpa using (hexDigit_plain (hhex d hd)).2.1
  have hblank : digits.dropWhile isBlank = digits ∧ scanSign digits = (false, digits) := by
    cases digits with
    | nil =>
        cases hlength
    | cons d digits =>
        rcases hexDigit_plain (hhex d List.mem_cons_self) with ⟨hd, -, hminus, hplus, -, -⟩
        simp [hd, scanSign, hminus, hplus]
  -- the second digit is no mark of a hexadecimal numeral
  have hmark : withoutMark digits = digits := by
    unfold withoutMark
    split
    · rename_i x d rest
      exact if_neg fun hand => (hexDigit_plain (hhex x (by simp))).2.2.2.2.1 hand.1
    · rfl
  have hspan := @takeWhile_append_stop _ _ [] hhex (by simp)
  rw [List.append_nil] at hspan
  have hne : digits ≠ [] := by
    rintro rfl
    cases hlength
  have hnumeral : hexNumeral digits = some (value, []) := by
    rw [hexNumeral, hmark]
    simp only [hspan.1, hspan.2, if_neg hne, hvalue]
  rw [tonumber16, List.takeWhile_eq_self_iff.2 hnonzero, hblank.1, hblank.2]
  simp only [hnumeral]
  rfl

/-! ## Reading an escape -/

theorem unichar_natCast (value : Nat) :
    unichar value =
      if value ≤ 0x007f then some (strchar [value])
      else if value ≤ 0x07ff then some (strchar [0xc0 + value / 0x40, 0x80 + value % 0x40])
      else if value ≤ 0xffff then
        some (strchar [0xe0 + value / 0x1000, 0x80 + value / 0x40 % 0x40, 0x80 + value % 0x40])
      else if value ≤ 0x10ffff then
        some (strchar [0xf0 + value / 0x40000, 0x80 + value / 0x1000 % 0x40,
          0x80 + value / 0x40 % 0x40, 0x80 + value % 0x40])
      else none := by
  have hnonneg : ¬ (value : Int) < 0 := by omega
  rw [unichar, if_neg hnonneg, Int.toNat_natCast]

/-- What `unichar` writes is the character in UTF-8. -/
theorem unichar_toNat (c : Char) : unichar c.toNat = some (bytesOf c) := by
  have hbound : c.toNat < 0x110000 :=
    c.valid.elim (fun h => Nat.lt_trans h (by decide)) fun h => h.2
  have hbytes : ∀ ns : List Nat, (∀ n ∈ ns, n < 256) →
      (ns.map UInt8.ofNat).map (fun b => Char.ofNat b.toNat) = strchar ns := by
    intro ns hns
    rw [List.map_map]
    exact List.map_congr_left fun n hn => congrArg Char.ofNat (Nat.mod_eq_of_lt (hns n hn))
  have hval : c.val.toNat = c.toNat := rfl
  simp only [unichar_natCast, bytesOf, String.utf8EncodeChar, hval]
  generalize c.toNat = n at hbound
  by_cases h₁ : n ≤ 0x7f
  · rw [if_pos h₁, if_pos h₁]
    exact congrArg some (hbytes [n] (by simpa using by omega)).symm
  · rw [if_neg h₁, if_neg h₁]
    by_cases h₂ : n ≤ 0x7ff
    · have hlead : 0xc0 + n / 0x40 = n / 64 % 0x20 + 0xc0 := by omega
      have hlast : 0x80 + n % 0x40 = n % 0x40 + 0x80 := Nat.add_comm _ _
      rw [if_pos h₂, if_pos h₂, hlead, hlast]
      exact congrArg some (hbytes [_, _] (by simpa using by omega)).symm
    · rw [if_neg h₂, if_neg h₂]
      by_cases h₃ : n ≤ 0xffff
      · have hlead : 0xe0 + n / 0x1000 = n / 4096 % 0x10 + 0xe0 := by omega
        have hnext : 0x80 + n / 0x40 % 0x40 = n / 64 % 0x40 + 0x80 := by omega
        have hlast : 0x80 + n % 0x40 = n % 0x40 + 0x80 := Nat.add_comm _ _
        rw [if_pos h₃, if_pos h₃, hlead, hnext, hlast]
        exact congrArg some (hbytes [_, _, _] (by simpa using by omega)).symm
      · have hlead : 0xf0 + n / 0x40000 = n / 262144 % 0x08 + 0xf0 := by omega
        have hnext : 0x80 + n / 0x1000 % 0x40 = n / 4096 % 0x40 + 0x80 := by omega
        have hnext' : 0x80 + n / 0x40 % 0x40 = n / 64 % 0x40 + 0x80 := by omega
        have hlast : 0x80 + n % 0x40 = n % 0x40 + 0x80 := Nat.add_comm _ _
        rw [if_neg h₃, if_neg h₃, if_pos (by omega), hlead, hnext, hnext', hlast]
        exact congrArg some (hbytes [_, _, _, _] (by simpa using by omega)).symm

section Scan

variable {str e w body v rest : List Char} {pos : Nat}

theorem sub_unit {digits : List Char} {value : Nat} (h : CodeUnit digits value)
    (hat : At str pos (digits ++ rest)) : sub str pos (pos + 3 : Nat) = digits := by
  have htake := hat.sub_eq 4
  have hpos := hat.pos_pos
  rwa [List.take_append_of_le_length (Nat.le_of_eq h.length_eq.symm),
    List.take_of_length_le (Nat.le_of_eq h.length_eq),
    show pos - 1 + 4 = pos + 3 by omega] at htake

/-- An escape is read wherever it stands. -/
theorem scanEscape_escape (h : Escape e w) (hat : At str pos (e ++ rest)) :
    scanEscape str pos = (w, pos + e.length) := by
  have hnext : ∀ {digits rest : List Char}, At str pos (unitText digits ++ rest) →
      sub str (pos + 1 : Nat) (pos + 1 : Nat) = ['u'] := fun hat => (At.next hat).sub_here
  cases h with
  | short x c h =>
      have hchar : sub str (pos + 1 : Nat) (pos + 1 : Nat) = [x] := (At.next hat).sub_here
      have hshort : ∀ s ∈ shorts, [s.1] ≠ ['u'] ∧ escapechars [s.1] = some [s.2] := by decide
      rcases hshort _ h with ⟨hne, hescape⟩
      rw [scanEscape, hchar, if_neg hne, hescape]
      rfl
  | unit digits c h =>
      have hdigits : sub str (pos + 2 : Nat) (pos + 5 : Nat) = digits :=
        sub_unit h (At.next (At.next hat))
      -- no character is a surrogate
      have hhigh : isHighSurrogate c.toNat = false := by
        have hvalid : c.toNat < 0xD800 ∨ 0xDFFF < c.toNat := c.valid.imp_right fun h => h.1
        simp only [isHighSurrogate, Bool.and_eq_false_iff, decide_eq_false_iff_not]
        omega
      have hscan : scanUnicode str pos = some (bytesOf c, pos + 6) := by
        rw [scanUnicode, hdigits, tonumber16_unit h]
        simp [hhigh, unichar_toNat]
      rw [scanEscape, hnext hat, if_pos rfl, hscan, unitText, List.length_cons, List.length_cons,
        h.length_eq]
  | pair digits digits' high low c h h' hhigh hlow hc =>
      rw [List.append_assoc] at hat
      have hdigits : sub str (pos + 2 : Nat) (pos + 5 : Nat) = digits :=
        sub_unit h (At.next (At.next hat))
      have hat' : At str (pos + 6) (unitText digits' ++ rest) := by
        have hadvance := hat.advance
        rwa [unitText, List.length_cons, List.length_cons, h.length_eq] at hadvance
      have hmark : sub str (pos + 6 : Nat) (pos + 7 : Nat) = ['\\', 'u'] := hat'.sub_eq 2
      have hdigits' : sub str (pos + 8 : Nat) (pos + 11 : Nat) = digits' :=
        sub_unit h' (At.next (At.next hat'))
      have hlowSurrogate : lowSurrogate str pos = some (low : Int) := by
        have hrange : isLowSurrogate low = true := by
          simp only [isLowSurrogate, Bool.and_eq_true, decide_eq_true_eq]
          omega
        rw [lowSurrogate, if_pos hmark, hdigits', tonumber16_unit h']
        simp only [hrange, if_true]
      have hrange : isHighSurrogate high = true := by
        simp only [isHighSurrogate, Bool.and_eq_true, decide_eq_true_eq]
        omega
      have hvalue : ((high : Int) - 0xD800) * 0x400 + ((low : Int) - 0xDC00) + 0x10000 = c.toNat := by
        omega
      have hscan : scanUnicode str pos = some (bytesOf c, pos + 12) := by
        rw [scanUnicode, hdigits, tonumber16_unit h]
        simp only [hrange, if_true, hlowSurrogate, hvalue, unichar_toNat]
        rfl
      rw [scanEscape, hnext hat, if_pos rfl, hscan]
      simp only [unitText, List.length_append, List.length_cons, h.length_eq, h'.length_eq]

/-- The text in front of the position is kept. -/
theorem keep_flatten {run : List Char} {buffer : List (List Char)} (hat : At str pos (run ++ rest)) :
    ((⟨pos, buffer⟩ : StringScan).keep str (pos + run.length)).flatten =
      buffer.flatten ++ run := by
  cases run with
  | nil =>
      simp [StringScan.keep]
  | cons c run =>
      have hpos := hat.pos_pos
      have hsub := hat.sub_eq (c :: run).length
      have hlast : ((pos + (c :: run).length : Nat) : Int) - 1 =
          ((pos - 1 + (c :: run).length : Nat) : Int) := by
        rw [List.length_cons]
        omega
      rw [List.take_left] at hsub
      rw [StringScan.keep, if_pos (by simp), hlast, hsub, List.flatten_append,
        List.flatten_singleton]

theorem find_quoteOrBackslash {run : List Char} {c : Char}
    (hrun : ∀ c ∈ run, c ≠ '"' ∧ c ≠ '\\') (hc : c = '"' ∨ c = '\\')
    (hat : At str pos (run ++ c :: rest)) :
    find str quoteOrBackslash pos false = .ok (some (pos + run.length, pos + run.length)) := by
  have hmiss : ∀ d ∈ run, quoteOrBackslashSet.holds d = false := by
    intro d hd
    have hd' := hrun d hd
    simp [quoteOrBackslashSet, Single.holds, Member.holds, hd'.1.symm, hd'.2.symm]
  have hhit : quoteOrBackslashSet.holds c = true := by
    rcases hc with rfl | rfl <;> decide
  have hidx : (run ++ c :: rest).findIdx? quoteOrBackslashSet.holds = some run.length := by
    rw [List.findIdx?_append, List.findIdx?_eq_none_iff.2 hmiss, List.findIdx?_cons, hhit]
    simp
  rw [hat.find_one (by decide) (by decide) (show parse quoteOrBackslash =
    [.one quoteOrBackslashSet] by decide), hidx]
  rfl

section Rounds

variable {start : Nat} {run : List Char} {buffer : List (List Char)}

theorem scanStringRound_quote (hrun : ∀ c ∈ run, c ≠ '"' ∧ c ≠ '\\')
    (hat : At str pos (run ++ '"' :: rest)) :
    scanStringRound str start ⟨pos, buffer⟩ = .ok (.done ⟨pos + run.length + 1,
      (⟨pos, buffer⟩ : StringScan).keep str (pos + run.length)⟩) := by
  have hquote := hat.advance.sub_here
  rw [scanStringRound, find_quoteOrBackslash hrun (Or.inl rfl) hat]
  simp only [lifted, bind, Except.bind, hquote, if_true]
  rfl

theorem scanStringRound_escape (hrun : ∀ c ∈ run, c ≠ '"' ∧ c ≠ '\\') (hescape : Escape e w)
    (hat : At str pos (run ++ (e ++ rest))) :
    scanStringRound str start ⟨pos, buffer⟩ = .ok (.again ⟨pos + run.length + e.length,
      (⟨pos, buffer⟩ : StringScan).keep str (pos + run.length) ++ [w]⟩) := by
  have hscan := scanEscape_escape hescape hat.advance
  rcases hescape.ne_nil with ⟨tail, rfl⟩
  have hbackslash := hat.advance.sub_here
  rw [scanStringRound, find_quoteOrBackslash hrun (Or.inr rfl) hat]
  simp only [lifted, bind, Except.bind, hbackslash, hscan]
  rfl

/-- The scan reads up to the first quote that is not escaped, and takes the text apart. -/
theorem reads_scan (h : Reads body v) (hat : At str pos (body ++ '"' :: rest)) :
    ∃ s, (scanStringLoop str start).run ⟨pos, buffer⟩ = .ok s ∧
      s.lastpos = pos + body.length + 1 ∧ s.buffer.flatten = buffer.flatten ++ v := by
  induction hsize : body.length using Nat.strongRecOn generalizing body v pos buffer with
  | ind n ih =>
      rcases h.runs with ⟨run, hrun, ⟨rfl, rfl⟩ | ⟨e, w, body', v', rfl, rfl, hescape, hrest⟩⟩
      · exact ⟨_, Loop.run_done _ (scanStringRound_quote hrun hat), by rw [hsize],
          keep_flatten hat⟩
      · rw [List.append_assoc, List.append_assoc] at hat
        have hkeep : ((⟨pos, buffer⟩ : StringScan).keep str (pos + run.length)).flatten =
            buffer.flatten ++ run := keep_flatten hat
        have hround : scanStringRound str start ⟨pos, buffer⟩ = _ :=
          scanStringRound_escape hrun hescape hat
        have hlength : 0 < e.length := by
          rcases hescape.ne_nil with ⟨tail, rfl⟩
          exact Nat.succ_pos _
        rw [List.length_append, List.length_append] at hsize
        rcases ih body'.length (by omega) hrest hat.advance.advance rfl with
          ⟨s, hs, hlast, hbuffer⟩
        refine ⟨s, (Loop.run_again _ hround).trans hs, by omega, ?_⟩
        rw [hbuffer, List.flatten_append, List.flatten_singleton, hkeep, List.append_assoc,
          List.append_assoc]

end Rounds

end Scan

/-! ## Escapes of characters -/

/-- A character of two or three bytes, without the surrogates. -/
inductive Sequence : List Char → Prop
  | two (a b : Char) (ha : 0xc2 ≤ a.toNat ∧ a.toNat ≤ 0xdf) (hb : 0x80 ≤ b.toNat ∧ b.toNat ≤ 0xbf) :
      Sequence [a, b]
  | three (a b c : Char) (ha : 0xe1 ≤ a.toNat ∧ a.toNat ≤ 0xef) (hsurrogate : a.toNat ≠ 0xed)
      (hb : 0x80 ≤ b.toNat ∧ b.toNat ≤ 0xbf) (hc : 0x80 ≤ c.toNat ∧ c.toNat ≤ 0xbf) :
      Sequence [a, b, c]

theorem Sequence.large {piece : List Char} (h : Sequence piece) :
    piece ≠ [] ∧ ∀ c ∈ piece, 0x80 ≤ c.toNat := by
  cases h with
  | two a b ha hb =>
      refine ⟨List.cons_ne_nil _ _, ?_⟩
      simp only [List.forall_mem_cons, List.not_mem_nil, false_implies, implies_true, and_true]
      omega
  | three a b c ha hsurrogate hb hc =>
      refine ⟨List.cons_ne_nil _ _, ?_⟩
      simp only [List.forall_mem_cons, List.not_mem_nil, false_implies, implies_true, and_true]
      omega

theorem escape_value {value : Nat} {w : List Char} (hvalue : value ≤ 0xffff)
    (hsurrogate : value < 0xD800 ∨ 0xDFFF < value) (hw : unichar value = some w) :
    Escape (escapeValue value) w := by
  have hvalid : value.isValidChar :=
    hsurrogate.imp_right fun h => ⟨h, Nat.lt_of_le_of_lt hvalue (by decide)⟩
  have htoNat : (Char.ofNat value).toNat = value := by
    rw [Char.ofNat, dif_pos hvalid]
    rfl
  have hbytes : w = bytesOf (Char.ofNat value) := by
    have hchar := unichar_toNat (Char.ofNat value)
    rw [htoNat, hw] at hchar
    exact Option.some.inj hchar
  rw [escapeValue, if_pos hvalue, hbytes]
  exact Escape.unit (hex4 value) (Char.ofNat value) (htoNat.symm ▸ hex4_unit hvalue)

theorem escape_sequence {piece : List Char} (h : Sequence piece) :
    Escape (escapeutf8 piece) piece := by
  cases h with
  | two a b ha hb =>
      have hvalue : escapeutf8 [a, b] = escapeValue ((a.toNat - 0xc0) * 0x40 + b.toNat - 0x80) := by
        have hlarge : ¬ a.toNat ≤ 0x7f := by omega
        have hrange : 0xc0 ≤ a.toNat ∧ a.toNat ≤ 0xdf ∧ b.toNat ≥ 0x80 := by omega
        simp [escapeutf8, escapecodes, byteAt, hlarge, hrange]
      rw [hvalue]
      refine escape_value (by omega) (by omega) ?_
      rw [unichar_natCast, if_neg (by omega), if_pos (by omega),
        show 0xc0 + ((a.toNat - 0xc0) * 0x40 + b.toNat - 0x80) / 0x40 = a.toNat by omega,
        show 0x80 + ((a.toNat - 0xc0) * 0x40 + b.toNat - 0x80) % 0x40 = b.toNat by omega]
      simp [strchar]
  | three a b c ha hsurrogate hb hc =>
      have hvalue : escapeutf8 [a, b, c] =
          escapeValue (((a.toNat - 0xe0) * 0x40 + b.toNat - 0x80) * 0x40 + c.toNat - 0x80) := by
        have hlarge : ¬ a.toNat ≤ 0x7f := by omega
        have htwo : ¬ (0xc0 ≤ a.toNat ∧ a.toNat ≤ 0xdf ∧ b.toNat ≥ 0x80) := by omega
        have hrange : 0xe0 ≤ a.toNat ∧ a.toNat ≤ 0xef ∧ b.toNat ≥ 0x80 ∧ c.toNat ≥ 0x80 := by
          omega
        have h₀ : byteAt [a, b, c] 0 = a.toNat := rfl
        have h₁ : byteAt [a, b, c] 1 = b.toNat := rfl
        have h₂ : byteAt [a, b, c] 2 = c.toNat := rfl
        simp only [escapeutf8, escapecodes, h₀, h₁, h₂, if_neg hlarge, if_neg htwo, if_pos hrange]
      rw [hvalue]
      refine escape_value (by omega) (by omega) ?_
      generalize hv : ((a.toNat - 0xe0) * 0x40 + b.toNat - 0x80) * 0x40 + c.toNat - 0x80 = value
      rw [unichar_natCast, if_neg (by omega), if_neg (by omega), if_pos (by omega),
        show 0xe0 + value / 0x1000 = a.toNat by omega,
        show 0x80 + value / 0x40 % 0x40 = b.toNat by omega,
        show 0x80 + value % 0x40 = c.toNat by omega]
      simp [strchar]

theorem escape_ascii {c : Char} (h : c.toNat < 0x80) : Escape (escapeutf8 [c]) [c] := by
  cases hcode : escapecodes [c] with
  | some value =>
      have hvalue : escapeutf8 [c] = value := by rw [escapeutf8, hcode]
      rw [hvalue]
      unfold escapecodes at hcode
      split at hcode
      all_goals
        rename_i heq
        cases hcode
      all_goals
        cases heq
        exact Escape.short _ _ (by decide)
  | none =>
      have hsmall : c.toNat ≤ 0x7f := by omega
      have hvalue : escapeutf8 [c] = escapeValue c.toNat := by
        simp [escapeutf8, hcode, byteAt, hsmall]
      rw [hvalue]
      refine escape_value (by omega) (by omega) ?_
      rw [unichar_natCast, if_pos hsmall]
      simp [strchar]

/-! ## The substitutions -/

def unusualSet : Single :=
  .set false ("\xc2\xd8\xdc\xe1\xe2\xef".toList.map .char)

/-- The singles of a pattern, which stand for characters of several bytes. -/
structure Several (pattern : List Char) (singles : List Single) : Prop where
  parse_eq : parse pattern = singles.map .one
  anchor_eq : anchor pattern = (false, pattern)
  word : pattern.any isSpecial = true ∨ Spells singles pattern
  ne_nil : singles ≠ []
  first : ∃ s ∈ singles, ∀ c, s.holds c = true → unusualSet.holds c = true
  large : ∀ s ∈ singles, ∀ c, s.holds c = true → 0x80 ≤ c.toNat
  sequence : ∀ piece, Spelled singles piece → Sequence piece

/-- All that a single holds for is in these bounds. -/
def within (low high : Nat) : Single → Bool
  | .char d => low ≤ d.toNat && d.toNat ≤ high
  | .set false members => members.all fun m =>
      match m with
      | .char d => low ≤ d.toNat && d.toNat ≤ high
      | .range d d' => low ≤ d.toNat && d'.toNat ≤ high
      | .cls _ => false
  | _ => false

theorem holds_char {c d : Char} (h : (Single.char d).holds c = true) : d = c := by
  simpa [Single.holds] using h

theorem holds_within {s : Single} {c : Char} {low high : Nat} (hs : within low high s = true)
    (h : s.holds c = true) : low ≤ c.toNat ∧ c.toNat ≤ high := by
  cases s with
  | any =>
      cases hs
  | cls letter =>
      cases hs
  | char d =>
      rw [← holds_char h]
      simpa [within] using hs
  | set complement members =>
      cases complement with
      | true =>
          cases hs
      | false =>
          have hany : members.any (·.holds c) = true := by simpa [Single.holds] using h
          rcases List.any_eq_true.1 hany with ⟨m, hm, hc⟩
          have hbounds := List.all_eq_true.1 hs m hm
          cases m with
          | cls letter =>
              cases hbounds
          | char d =>
              have hd : d = c := by simpa [Member.holds] using hc
              rw [← hd]
              simpa using hbounds
          | range d d' =>
              have hrange : d.toNat ≤ c.toNat ∧ c.toNat ≤ d'.toNat := by
                simpa [Member.holds, Char.le_def, UInt32.le_iff_toNat_le] using hc
              have hd : low ≤ d.toNat ∧ d'.toNat ≤ high := by simpa using hbounds
              omega

theorem reads_substitute {pattern : List Char} {singles : List Single} {body v : List Char}
    (hpattern : Several pattern singles) (h : Reads body v) :
    Reads (substituteBy (spellsAt singles) escapeutf8 0 body) v := by
  induction hsize : body.length using Nat.strongRecOn generalizing body v with
  | ind n ih =>
      cases hread : readSingles singles body with
      | some rest =>
          -- a character of several bytes, which no escape contains
          rcases readSingles_eq_append hread with ⟨piece, rfl, hpiece⟩
          have hsequence := hpattern.sequence piece hpiece
          rcases h.split hsequence.large.2 with ⟨v', rfl, hrest⟩
          have hlength : 0 < piece.length := List.length_pos_iff.2 hsequence.large.1
          rw [List.length_append] at hsize
          rw [substituteBy_hit hsequence.large.1 (by rw [spellsAt, hread, ← hpiece.length_eq]; rfl)]
          exact Reads.escape (escape_sequence hsequence) (ih rest.length (by omega) hrest rfl)
      | none =>
          cases h with
          | nil =>
              exact Reads.nil
          | plain c hquote hbackslash hcontrol hrest =>
              rw [List.length_cons] at hsize
              rw [substituteBy_miss (by rw [spellsAt, hread]; rfl)]
              exact Reads.plain c hquote hbackslash hcontrol (ih _ (by omega) hrest rfl)
          | @escape e w body v hescape hrest =>
              have hmiss : ∀ left right, e = left ++ right → right ≠ [] →
                  spellsAt singles (right ++ body) = none := by
                intro left right heq hne
                cases hspells : readSingles singles (right ++ body) with
                | none =>
                    rw [spellsAt, hspells]
                    rfl
                | some after =>
                    rcases List.exists_cons_of_ne_nil hne with ⟨c, right, rfl⟩
                    have hsmall := hescape.visible c (by rw [heq]; simp)
                    rcases List.exists_cons_of_ne_nil hpattern.ne_nil with ⟨s, singles', rfl⟩
                    rw [List.cons_append, readSingles] at hspells
                    split at hspells
                    · rename_i hs
                      have hlarge := hpattern.large s List.mem_cons_self c hs
                      omega
                    · cases hspells
              have hlength : 0 < e.length := by
                rcases hescape.ne_nil with ⟨tail, rfl⟩
                exact Nat.succ_pos _
              rw [List.length_append] at hsize
              rw [substituteBy_miss_all hmiss]
              exact Reads.escape hescape (ih body.length (by omega) hrest rfl)

/-- The items of a pattern stand for characters of two or three bytes. -/
def standsForSeveral : List Item → Bool
  | [.one (.char a), .one t] =>
      unusualSet.holds a && within 0xc2 0xdf (.char a) && within 0x80 0xbf t
  | [.one (.char a), .one t, .one u] =>
      unusualSet.holds a && within 0xe1 0xef (.char a) && a.toNat != 0xed && within 0x80 0xbf t &&
        within 0x80 0xbf u
  | _ => false

section Several

variable {pattern : List Char} {a : Char} {t u : Single}

theorem several_two (hparse : parse pattern = [.one (.char a), .one t])
    (hanchor : anchor pattern = (false, pattern))
    (hword : pattern.any isSpecial = true ∨ Spells [.char a, t] pattern)
    (hfirst : unusualSet.holds a = true) (ha : within 0xc2 0xdf (.char a) = true)
    (ht : within 0x80 0xbf t = true) : Several pattern [.char a, t] where
  parse_eq := hparse
  anchor_eq := hanchor
  word := hword
  ne_nil := List.cons_ne_nil _ _
  first := ⟨.char a, List.mem_cons_self, fun d hd => holds_char hd ▸ hfirst⟩
  large := by
    intro s hs c hc
    rcases List.mem_pair.1 hs with rfl | rfl
    · have hbounds := holds_within ha hc
      omega
    · exact (holds_within ht hc).1
  sequence := by
    intro piece hpiece
    rcases hpiece with _ | ⟨hc, _ | ⟨hd, _ | _⟩⟩
    exact Sequence.two _ _ (holds_within ha hc) (holds_within ht hd)

theorem several_three (hparse : parse pattern = [.one (.char a), .one t, .one u])
    (hanchor : anchor pattern = (false, pattern))
    (hword : pattern.any isSpecial = true ∨ Spells [.char a, t, u] pattern)
    (hfirst : unusualSet.holds a = true) (ha : within 0xe1 0xef (.char a) = true)
    (hsurrogate : a.toNat ≠ 0xed) (ht : within 0x80 0xbf t = true)
    (hu : within 0x80 0xbf u = true) : Several pattern [.char a, t, u] where
  parse_eq := hparse
  anchor_eq := hanchor
  word := hword
  ne_nil := List.cons_ne_nil _ _
  first := ⟨.char a, List.mem_cons_self, fun d hd => holds_char hd ▸ hfirst⟩
  large := by
    intro s hs c hc
    simp only [List.mem_cons, List.not_mem_nil, or_false] at hs
    rcases hs with rfl | rfl | rfl
    · have hbounds := holds_within ha hc
      omega
    · exact (holds_within ht hc).1
    · exact (holds_within hu hc).1
  sequence := by
    intro piece hpiece
    rcases hpiece with _ | ⟨hc, _ | ⟨hd, _ | ⟨he, _ | _⟩⟩⟩
    refine Sequence.three _ _ _ (holds_within ha hc) ?_ (holds_within ht hd) (holds_within hu he)
    rwa [← holds_char hc]

end Several

theorem spells_chars (word : List Char) : Spells (word.map .char) word := by
  induction word with
  | nil =>
      exact .nil
  | cons c word ih =>
      exact .cons (fun d => by simp [Single.holds, eq_comm]) ih

theorem unusualPatterns_items : ∀ pattern ∈ unusualPatterns,
    standsForSeveral (parse pattern) = true ∧ anchor pattern = (false, pattern) ∧
      (pattern.any isSpecial = true ∨ parse pattern = (pattern.map .char).map .one) := by
  decide +kernel

theorem exists_several {pattern : List Char} (h : pattern ∈ unusualPatterns) :
    ∃ singles, Several pattern singles := by
  rcases unusualPatterns_items pattern h with ⟨hitems, hanchor, hword⟩
  have hspells : ∀ singles : List Single, parse pattern = singles.map .one →
      pattern.any isSpecial = true ∨ Spells singles pattern := by
    intro singles hparse
    refine hword.imp_right fun hchars => ?_
    have hsingles : singles = pattern.map .char :=
      List.map_injective_iff.2 (fun _ _ heq => Item.one.inj heq) (hparse.symm.trans hchars)
    rw [hsingles]
    exact spells_chars pattern
  generalize hparse : parse pattern = items at hitems
  unfold standsForSeveral at hitems
  split at hitems
  · simp only [Bool.and_eq_true] at hitems
    exact ⟨_, several_two hparse hanchor (hspells _ hparse) hitems.1.1 hitems.1.2 hitems.2⟩
  · simp only [Bool.and_eq_true, bne_iff_ne] at hitems
    exact ⟨_, several_three hparse hanchor (hspells _ hparse) hitems.1.1.1.1 hitems.1.1.1.2
      hitems.1.1.2 hitems.1.2 hitems.2⟩
  · cases hitems

/-! ## The first substitution -/

def escapableSet : Single :=
  .set false [.cls 'z', .range '\x01' '\x1f', .char '"', .char '\\', .char '\x7f']

theorem escapable_parse : parse escapable = [escapableSet].map .one := by decide +kernel

theorem holds_escapable {c : Char} :
    escapableSet.holds c = true ↔ c.toNat < 0x20 ∨ c = '"' ∨ c = '\\' ∨ c.toNat = 0x7f := by
  have hzero : c = '\x00' ↔ c.toNat = 0 := by rw [← Char.toNat_inj]; rfl
  have hdel : '\x7f' = c ↔ c.toNat = 0x7f := by rw [eq_comm, ← Char.toNat_inj]; rfl
  have hcls : matchClass 'z' c = decide (c = '\x00') := rfl
  have hrange : ('\x01' ≤ c ∧ c ≤ '\x1f') ↔ 1 ≤ c.toNat ∧ c.toNat ≤ 0x1f := by
    simp [Char.le_def, UInt32.le_iff_toNat_le]
  simp only [escapableSet, Single.holds, Member.holds, List.any_cons, List.any_nil, hcls, hdel,
    Bool.or_false, bne_iff_ne, ne_eq, Bool.false_eq, Bool.or_eq_true, Bool.and_eq_true,
    decide_eq_true_eq, Bool.not_eq_false, hrange, hzero, eq_comm (a := '"'), eq_comm (a := '\\')]
  have hcontrol : c.toNat < 0x20 ↔ c.toNat = 0 ∨ 1 ≤ c.toNat ∧ c.toNat ≤ 0x1f := by omega
  rw [hcontrol, or_assoc]

theorem reads_escapable (v : List Char) :
    Reads (substituteBy (spellsAt [escapableSet]) escapeutf8 0 v) v ∧
      ∀ c ∈ substituteBy (spellsAt [escapableSet]) escapeutf8 0 v,
        0x20 ≤ c.toNat ∧ c.toNat ≠ 0x7f := by
  induction v with
  | nil =>
      exact ⟨Reads.nil, fun c hc => nomatch hc⟩
  | cons c v ih =>
      by_cases hc : escapableSet.holds c = true
      · have hsmall : c.toNat < 0x80 := by
          rcases holds_escapable.1 hc with h | rfl | rfl | h
          · omega
          · decide
          · decide
          · omega
        have hescape := escape_ascii hsmall
        have hread : readSingles [escapableSet] ([c] ++ v) = some v := by
          rw [List.cons_append, readSingles, if_pos hc]
          rfl
        have hsubst : substituteBy (spellsAt [escapableSet]) escapeutf8 0 ([c] ++ v) =
            escapeutf8 [c] ++ substituteBy (spellsAt [escapableSet]) escapeutf8 0 v :=
          substituteBy_hit (List.cons_ne_nil _ _) (by rw [spellsAt, hread]; rfl)
        rw [List.singleton_append] at hsubst
        rw [hsubst]
        refine ⟨Reads.escape hescape ih.1, fun d hd => ?_⟩
        rcases List.mem_append.1 hd with hd | hd
        · have hvisible := hescape.visible d hd
          omega
        · exact ih.2 d hd
      · rw [substituteBy_miss (by rw [spellsAt, readSingles_eq_none (by simpa using hc)]; rfl)]
        rw [holds_escapable] at hc
        refine ⟨Reads.plain c (fun h => hc (by simp [h])) (fun h => hc (by simp [h])) (by omega) ih.1, ?_⟩
        exact List.forall_mem_cons.2 ⟨by omega, ih.2⟩

/-! ## The text between the quotes -/

/-- A text that is read as `v`, without a character that is not seen in ASCII and without the
characters of `patterns`. -/
structure Written (patterns : List (List Char)) (v body : List Char) : Prop where
  reads : Reads body v
  visible : ∀ c ∈ body, 0x20 ≤ c.toNat ∧ c.toNat ≠ 0x7f
  missing : ∀ pattern ∈ patterns, ∀ singles, Several pattern singles → ¬ Contains singles body

theorem Several.foreign {pattern pattern' : List Char} {singles singles' : List Single}
    (h : Several pattern singles) (h' : Several pattern' singles') :
    Foreign singles singles' escapeutf8 := by
  intro piece hpiece
  have hescape := escape_sequence (h.sequence piece hpiece)
  rcases hescape.ne_nil with ⟨tail, htail⟩
  refine ⟨by rw [htail]; exact List.cons_ne_nil _ _, fun c hc s hs => ?_⟩
  have hvisible := hescape.visible c hc
  cases hholds : s.holds c with
  | false =>
      rfl
  | true =>
      have hlarge := h'.large s hs c hholds
      omega

theorem Several.eq {pattern : List Char} {singles singles' : List Single}
    (h : Several pattern singles) (h' : Several pattern singles') : singles = singles' :=
  List.map_injective_iff.2 (fun _ _ heq => Item.one.inj heq) (h.parse_eq.symm.trans h'.parse_eq)

theorem Written.fsub {patterns : List (List Char)} {pattern v body : List Char}
    (h : Written patterns v body) (hpattern : pattern ∈ unusualPatterns) :
    ∃ body', fsub body pattern escapeutf8 = .ok body' ∧ Written (pattern :: patterns) v body' := by
  rcases exists_several hpattern with ⟨singles, hseveral⟩
  rw [Json.fsub]
  by_cases hcontains : Contains singles body
  · rcases find_ones_found hseveral.anchor_eq hseveral.parse_eq hseveral.word hcontains with
      ⟨found, hfound⟩
    rw [hfound]
    refine ⟨_, gsubBy_ones hseveral.ne_nil hseveral.parse_eq, reads_substitute hseveral h.reads, ?_, ?_⟩
    · intro c hc
      rcases mem_substituteBy hseveral.ne_nil hc with hc | ⟨piece, hpiece, hc⟩
      · exact h.visible c hc
      · have hvisible := (escape_sequence (hseveral.sequence piece hpiece)).visible c hc
        omega
    · intro pattern' hmem singles' hseveral'
      rcases List.mem_cons.1 hmem with rfl | hmem
      · rw [← hseveral.eq hseveral']
        exact substituteBy_removes hseveral.ne_nil (hseveral.foreign hseveral)
      · exact not_contains_substituteBy hseveral.ne_nil hseveral'.ne_nil
          (hseveral.foreign hseveral') (h.missing pattern' hmem singles' hseveral')
  · rw [find_ones_missing 1 hseveral.anchor_eq hseveral.parse_eq hseveral.word hcontains]
    refine ⟨body, rfl, h.reads, h.visible, ?_⟩
    intro pattern' hmem singles' hseveral'
    rcases List.mem_cons.1 hmem with rfl | hmem
    · rwa [← hseveral.eq hseveral']
    · exact h.missing pattern' hmem singles' hseveral'

theorem Written.fsubAll {patterns done : List (List Char)} {v body : List Char}
    (h : Written done v body) (hpatterns : ∀ pattern ∈ patterns, pattern ∈ unusualPatterns) :
    ∃ body', fsubAll body patterns = .ok body' ∧ Written (patterns.reverse ++ done) v body' := by
  induction patterns generalizing done body with
  | nil =>
      exact ⟨body, rfl, h⟩
  | cons pattern patterns ih =>
      rcases h.fsub (hpatterns pattern List.mem_cons_self) with ⟨next, hfsub, hnext⟩
      rcases ih hnext fun p hp => hpatterns p (List.mem_cons_of_mem _ hp) with ⟨body', hall, hbody⟩
      refine ⟨body', ?_, by simpa using hbody⟩
      rw [Json.fsubAll, List.foldlM_cons, hfsub]
      exact hall

theorem fsub_escapable (v : List Char) :
    fsub v escapable escapeutf8 =
      .ok (substituteBy (spellsAt [escapableSet]) escapeutf8 0 v) := by
  have hword : escapable.any isSpecial = true ∨ Spells [escapableSet] escapable :=
    Or.inl (by decide)
  rw [fsub]
  by_cases hcontains : Contains [escapableSet] v
  · rcases find_ones_found (by decide) escapable_parse hword hcontains with ⟨found, hfound⟩
    rw [hfound]
    exact gsubBy_ones (List.cons_ne_nil _ _) escapable_parse
  · rw [find_ones_missing 1 (by decide) escapable_parse hword hcontains,
      substituteBy_eq_self hcontains]
    rfl

theorem quoteBody_written (v : List Char) :
    ∃ body, quoteBody v = .ok body ∧ Written unusualPatterns v body := by
  have hwritten : Written [] v (substituteBy (spellsAt [escapableSet]) escapeutf8 0 v) :=
    ⟨(reads_escapable v).1, (reads_escapable v).2, fun pattern hpattern => nomatch hpattern⟩
  generalize hbody : substituteBy (spellsAt [escapableSet]) escapeutf8 0 v = body at hwritten
  have hparse : parse unusual = [unusualSet].map .one := by decide +kernel
  rw [quoteBody, fsub_escapable, hbody]
  by_cases hcontains : Contains [unusualSet] body
  · rcases find_ones_found (by decide) hparse (Or.inl (by decide)) hcontains with ⟨found, hfound⟩
    rcases @Written.fsubAll unusualPatterns _ _ _ hwritten fun _ h => h with ⟨body', hall, hbody'⟩
    refine ⟨body', ?_, hbody'.reads, hbody'.visible, fun pattern hmem => ?_⟩
    · simp only [bind, Except.bind, hfound]
      exact hall
    · exact hbody'.missing pattern (by simpa using hmem)
  · -- each of the other patterns starts with one of the bytes that are missing
    refine ⟨body, ?_, hwritten.reads, hwritten.visible, ?_⟩
    · simp only [bind, Except.bind, find_ones_missing 1 (by decide) hparse
        (Or.inl (by decide) : unusual.any isSpecial = true ∨ Spells [unusualSet] unusual) hcontains]
      rfl
    · intro pattern _ singles hseveral
      rcases hseveral.first with ⟨s, hs, hfirst⟩
      refine not_contains hs fun c hc => ?_
      cases hholds : s.holds c with
      | false =>
          rfl
      | true =>
          rcases List.append_of_mem hc with ⟨before, after, rfl⟩
          refine absurd ⟨before, c :: after, rfl, ?_⟩ hcontains
          rw [readSingles, if_pos (hfirst c hholds)]
          rfl

theorem Several.missing_quoted {pattern body : List Char} {singles : List Single}
    (h : Several pattern singles) (hmissing : ¬ Contains singles body) :
    ¬ Contains singles ('"' :: (body ++ ['"'])) := by
  rintro ⟨before, last, heq, hlast⟩
  rcases Option.isSome_iff_exists.1 hlast with ⟨rest, hread⟩
  rcases readSingles_eq_append hread with ⟨piece, rfl, hpiece⟩
  have hlarge := (h.sequence piece hpiece).large
  have hquote : '"' ∉ piece := fun hmem => absurd (hlarge.2 _ hmem) (by decide)
  cases before with
  | nil =>
      rcases List.exists_cons_of_ne_nil hlarge.1 with ⟨c, piece, rfl⟩
      rw [List.nil_append, List.cons_append] at heq
      exact hquote (by rw [(List.cons_eq_cons.1 heq).1]; exact List.mem_cons_self)
  | cons c before =>
      have hbody : body ++ ['"'] = (before ++ piece) ++ rest := by
        rw [List.append_assoc]
        exact (List.cons_eq_cons.1 heq).2
      rcases List.eq_nil_or_concat rest with rfl | ⟨rest, d, rfl⟩
      · rw [List.append_nil] at hbody
        have hlast := congrArg List.getLast? hbody
        rw [List.getLast?_concat, List.getLast?_append_of_ne_nil _ hlarge.1] at hlast
        exact hquote (List.mem_of_getLast? hlast.symm)
      · rw [List.concat_eq_append, ← List.append_assoc] at hbody
        have hinit := (List.append_inj' hbody rfl).1
        exact hmissing ⟨before, piece ++ rest, by rw [hinit, List.append_assoc],
          by rw [hpiece.read]; rfl⟩

/-! ## The round trip -/

/-- What `quotestring` writes is a string of JSON. -/
theorem quotestring_text (v : List Char) : ∃ q, quotestring v = .ok q ∧ StringText q v := by
  rcases quoteBody_written v with ⟨body, hbody, hwritten⟩
  exact ⟨'"' :: (body ++ ['"']), by rw [quotestring, hbody]; rfl, body, hwritten.reads, rfl⟩

/-- `scanstring` reads every string of JSON, wherever it stands, and ends behind it. -/
theorem scanstring_text {str q v rest : List Char} {pos : Nat} (h : StringText q v)
    (hat : At str pos (q ++ rest)) : scanstring str pos = .ok (v, pos + q.length) := by
  rcases h with ⟨body, hreads, rfl⟩
  rw [show ('"' :: (body ++ ['"'])) ++ rest = '"' :: (body ++ '"' :: rest) by simp] at hat
  rcases @reads_scan _ _ _ _ _ pos [] hreads hat.next with ⟨s, hrun, hlast, hbuffer⟩
  rw [List.flatten_nil, List.nil_append] at hbuffer
  rw [scanstring, hrun]
  simp only [hlast, hbuffer, List.length_cons, List.length_append, List.length_nil]
  congr 2
  omega

/-- What `quotestring` writes of a text is read by `scanstring` as that text, wherever it stands,
and the scan ends behind it. -/
theorem quotestring_scanstring (v before rest : List Char) :
    ∃ q, quotestring v = .ok q ∧ scanstring (before ++ (q ++ rest)) (before.length + 1) =
      .ok (v, before.length + 1 + q.length) := by
  rcases quotestring_text v with ⟨q, hquote, htext⟩
  have hat : At (before ++ (q ++ rest)) (before.length + 1) (q ++ rest) := by
    have hadvance := (At.start (before ++ (q ++ rest))).advance
    rwa [Nat.add_comm] at hadvance
  exact ⟨q, hquote, scanstring_text htext hat⟩

/-- `quotestring` leaves no control character in its result, and none of the characters of several
bytes that other readers may not take. -/
theorem quotestring_clean (v : List Char) :
    ∃ q, quotestring v = .ok q ∧ (∀ c ∈ q, 0x20 ≤ c.toNat ∧ c.toNat ≠ 0x7f) ∧
      ∀ pattern ∈ unusualPatterns, ∀ init, find q pattern init false = .ok none := by
  rcases quoteBody_written v with ⟨body, hbody, hwritten⟩
  refine ⟨'"' :: (body ++ ['"']), by rw [quotestring, hbody]; rfl, ?_, ?_⟩
  · intro c hc
    rcases List.mem_cons.1 hc with rfl | hc
    · decide
    · rcases List.mem_append.1 hc with hc | hc
      · exact hwritten.visible c hc
      · rw [List.mem_singleton.1 hc]
        decide
  · intro pattern hpattern init
    rcases exists_several hpattern with ⟨singles, hseveral⟩
    exact find_ones_missing init hseveral.anchor_eq hseveral.parse_eq hseveral.word
      (hseveral.missing_quoted (hwritten.missing pattern hpattern singles hseveral))

end Json
end LuajitTcpServer
