import LuajitTcpServer.Lib.CallSeq
import LuajitTcpServer.SharedMemory.Accesses

/-!
# RoundTrip — what one process writes and the other reads

A `File` says what a segment is for: it has contents, and a running position for each of its two
ends.  `Link` is the segment in memory, between the module states of a writer and a reader.

* Writes keep the segment and the file in agreement (`Agrees.write`).
* A read gives what the file holds there if it starts at position 0; past it, it gives what the
  reader's own out segment holds (`read_exact_iff`).
-/

namespace LuajitTcpServer
namespace SharedMemory
namespace Mmap

open ByteMemory CallSeq

/-! ## Files -/

/-- The bytes `mmapOutWrite` copies: `strlen` of them if `dataLen < 1`. -/
def Transfer.bytes (t : Transfer) : List UInt8 :=
  t.data.take (if t.dataLen < 1 then (strlen t.data).getD 0 else t.dataLen.toNat)

structure File where
  content : Int → UInt8
  outPos : Int
  inPos : Int

inductive Call
  | write (t : Transfer)
  | read (t : Transfer)

def File.call (f : File) : Call → File
  | .write t =>
      { f with
        content := overlay f.content (seek t.pos f.outPos) t.bytes
        outPos := seek t.pos f.outPos + t.bytes.length }
  | .read t => { f with inPos := seek t.pos f.inPos + t.dataLen }

/-- What a read is to store: what the file holds at the position of the read. -/
def File.expected (f : File) (t : Transfer) : List UInt8 :=
  window f.content (seek t.pos f.inPos) t.dataLen.toNat

/-- A call that appends `bytes`. -/
def appending (status : Int) (bytes : List UInt8) : Call :=
  .write ⟨status, append, bytes, bytes.length⟩

/-- Chunks that are appended one after another are read back as their concatenation. -/
theorem appended_chunks (f : File) (status : Int) (chunks : List (List UInt8))
    (hnonempty : ∀ chunk ∈ chunks, chunk ≠ []) :
    window ((chunks.map (appending status)).foldl File.call f).content f.outPos
      chunks.flatten.length = chunks.flatten := by
  -- the appends together write the concatenation at the first position
  have hcontent : ((chunks.map (appending status)).foldl File.call f).content =
      overlay f.content f.outPos chunks.flatten := by
    induction chunks generalizing f with
    | nil =>
        rfl
    | cons chunk rest ih =>
        have hchunk : ¬ (chunk.length : Int) < 1 := by
          have hpos := List.length_pos_iff.2 (hnonempty chunk List.mem_cons_self)
          omega
        have hcall : f.call (appending status chunk) =
            { f with
              content := overlay f.content f.outPos chunk
              outPos := f.outPos + chunk.length } := by
          simp [File.call, appending, Transfer.bytes, seek, append, hchunk]
        have hrest := ih (f.call (appending status chunk))
          fun c hc => hnonempty c (List.mem_cons_of_mem chunk hc)
        rw [List.map_cons, List.foldl_cons, List.flatten_cons, hrest, hcall]
        exact overlay_append _
  rw [hcontent]
  exact window_overlay

/-! ## The two ends of a segment -/

structure Link where
  writer : Process
  reader : Process
  memory : Memory Cell

/-- The result, the destination buffer and the state after a call. -/
def Link.call (l : Link) : Call → Except Fault (Int × List UInt8 × Link)
  | .write t => do
      let (result, writer, memory) ← mmapOutWrite l.writer l.memory t.status t.pos t.data t.dataLen
      pure (result, t.data, { l with writer := writer, memory := memory })
  | .read t => do
      let (result, data, reader, memory) ←
        mmapInRead l.reader l.memory t.status t.pos t.data t.dataLen
      pure (result, data, { l with reader := reader, memory := memory })

section Attached

variable {p : Process} {outSize inSize : Int} {outOpened inOpened : Opened} {addr : Int}
  {segment : String}

theorem outMapped_attach (haddr : outOpened.address = some addr)
    (hmaps : Maps inOpened.space addr (Cell.mk segment) outSize) :
    OutMapped (attach p outSize outOpened inSize inOpened) addr segment outSize where
  address := haddr
  ptrStatus := by simp [attach, mmapAddressSet, mmapInConnect, mmapOutCreate, haddr,
    getOffsetPointer]
  ptrData := by simp [attach, mmapAddressSet, mmapInConnect, mmapOutCreate, haddr,
    getOffsetPointer]
  maxSize := rfl
  maps := hmaps

theorem inMapped_attach (haddr : inOpened.address = some addr) (hvalid : inOpened.failed = false)
    (hmaps : Maps inOpened.space addr (Cell.mk segment) inSize) :
    InMapped (attach p outSize outOpened inSize inOpened) addr segment inSize where
  ptrData := by simp [attach, mmapAddressSet, mmapInConnect, haddr, getOffsetPointer]
  inSize_eq := by simp [attach, mmapAddressSet, mmapInConnect, hvalid]
  maps := hmaps

end Attached

/-- The out segment of the writer is the in segment of the reader, which has an out segment of its
own. -/
structure Linked (l : Link) (segment : String) (size : Int) : Prop where
  writer : ∃ addr, OutMapped l.writer addr segment size
  reader : ∃ addr, InMapped l.reader addr segment size
  own : ∃ addr ownSegment ownSize, 0 < ownSize ∧ OutMapped l.reader addr ownSegment ownSize
  outPos_nonneg : 0 ≤ l.writer.outPos
  inPos_nonneg : 0 ≤ l.reader.inPos

/-- The segment holds the contents of the file, and the running positions are the same. -/
structure Agrees (l : Link) (segment : String) (f : File) : Prop where
  content_eq : ∀ i, 0 ≤ i → l.memory (dataCell segment i) = f.content i
  outPos_eq : l.writer.outPos = f.outPos
  inPos_eq : l.reader.inPos = f.inPos

/-- The contents of a segment as a file. -/
def Link.file (l : Link) (segment : String) : File where
  content i := l.memory (dataCell segment i)
  outPos := l.writer.outPos
  inPos := l.reader.inPos

theorem agrees_file (l : Link) (segment : String) : Agrees l segment (l.file segment) :=
  ⟨fun _ _ => rfl, rfl, rfl⟩

/-! ## Writing -/

section Writing

variable {p p' : Process} {memory memory' : Memory Cell} {addr size : Int} {segment : String}
  {t : Transfer}

/-- The length of a write is that of the bytes it copies, if the buffer holds them. -/
theorem outLen_eq_ok {len : Int} (hrun : outLen t.data t.dataLen = .ok len) :
    t.bytes = t.data.take len.toNat := by
  unfold outLen at hrun
  unfold Transfer.bytes
  by_cases hshort : t.dataLen < 1
  · simp only [hshort, if_true] at hrun ⊢
    cases hstrlen : strlen t.data with
    | none =>
        simp only [hstrlen] at hrun
        cases hrun
    | some n =>
        simp only [hstrlen] at hrun
        cases hrun
        rfl
  · simp only [hshort, if_false] at hrun ⊢
    cases hrun
    rfl

theorem copyOut_ok (h : OutMapped p addr segment size) (hpos : 0 ≤ p.outPos) {dataLen : Int}
    (hlen : 0 ≤ dataLen) (hfits : p.outPos + dataLen ≤ size - statusLen) {result status : Int}
    {data : List UInt8} (hrun : copyOut p memory status data dataLen = .ok (result, p', memory')) :
    (data.take dataLen.toNat).length = dataLen ∧
      p' = { p with outPos := p.outPos + dataLen } ∧
      memory' = Function.update
        (patch memory (dataCell segment) p.outPos (data.take dataLen.toNat)) ⟨segment, 0⟩
        (UInt8.ofInt status) := by
  -- a copy that returns has found its bytes in the buffer
  have hdata : dataLen ≤ data.length := by
    simp only [copyOut, bind_eq_ok, accessed_eq_ok] at hrun
    rcases hrun with ⟨ptr, -, bytes, hbytes, -⟩
    exact firstBytes_eq_some hbytes
  rw [copyOut_run h hpos hlen hdata hfits] at hrun
  cases hrun
  refine ⟨?_, rfl, rfl⟩
  rw [List.length_take]
  omega

/-- What a write that returns 0 has done. -/
theorem mmapOutWrite_ok (h : OutMapped p addr segment size) (hpos : 0 ≤ p.outPos)
    (hrun : mmapOutWrite p memory t.status t.pos t.data t.dataLen = .ok (0, p', memory')) :
    0 ≤ seek t.pos p.outPos ∧
      p' = { p with outPos := seek t.pos p.outPos + t.bytes.length } ∧
      memory' = Function.update
        (patch memory (dataCell segment) (seek t.pos p.outPos) t.bytes) ⟨segment, 0⟩
        (UInt8.ofInt t.status) := by
  have hbegun := hrun
  simp only [mmapOutWrite, bind_eq_ok] at hbegun
  rcases hbegun with ⟨len, hlen, -⟩
  rcases @mmapOutWrite_cases p memory t _ _ hlen h.maxSize with
    ⟨result, hresult, hrefused⟩ | ⟨hone, hfits, hcopy⟩
  · -- the result of a refusal is negative
    rw [hrefused] at hrun
    cases hrun
    exact absurd hresult (by decide)
  · have hseek : 0 ≤ seek t.pos p.outPos := seek_nonneg hpos
    have hmapped := h.moved (seek t.pos p.outPos) p.inPos
    rw [hcopy] at hrun
    rcases copyOut_ok hmapped hseek (by omega) hfits hrun with ⟨hlength, rfl, rfl⟩
    rw [outLen_eq_ok hlen, hlength]
    exact ⟨hseek, rfl, rfl⟩

end Writing

/-! ## Reading -/

section Reading

variable {p p' : Process} {memory memory' : Memory Cell} {addr size : Int} {segment : String}
  {t : Transfer} {data : List UInt8}

/-- What a read of `t` from the running position has done: it has found bytes where `readPtr`
points to, stored them at the beginning of its buffer, and set the status. -/
structure HasRead (p : Process) (memory : Memory Cell) (t : Transfer) (inMaxSize : Int)
    (data : List UInt8) (p' : Process) (memory' : Memory Cell) : Prop where
  fits : p.inPos + t.dataLen ≤ inMaxSize
  process : p' = { p with inPos := p.inPos + t.dataLen }
  status : mmapStatusOutSet p memory t.status = .ok memory'
  copied : ∃ ptr bytes, readPtr p = .ok ptr ∧
    load p.space memory ptr t.dataLen.toNat = some bytes ∧ replaceFirst t.data bytes = some data

theorem mmapInRead_ok {inSize : Int} (hsize : p.inSize = some inSize)
    (hrun : mmapInRead p memory t.status t.pos t.data t.dataLen = .ok (0, data, p', memory')) :
    0 ≤ t.dataLen ∧
      HasRead { p with inPos := seek t.pos p.inPos } memory t (inSize - statusLen) data p'
        memory' := by
  rcases @mmapInRead_cases p memory t with
    ⟨-, hrefused⟩ | ⟨⟨inSize', hsize', hlen, -, hfits⟩, hcopy⟩
  · exact absurd (hrefused 0 data p' memory' hrun).1 (by decide)
  · cases hsize.symm.trans hsize'
    rw [hcopy] at hrun
    rcases copyIn_eq_ok hrun with ⟨-, hprocess, hstatus, hcopied⟩
    exact ⟨hlen, hfits, hprocess, hstatus, hcopied⟩

end Reading

/-! ## Calls -/

/-- What the reader's own out segment holds at the position of a read. -/
def Link.ownBytes (l : Link) (f : File) (t : Transfer) : Option (List UInt8) :=
  load l.reader.space l.memory (l.reader.outAddress.getD 0 + seek t.pos f.inPos + statusLen)
    t.dataLen.toNat

section Calls

variable {l l' : Link} {f : File} {segment : String} {size : Int} {t : Transfer} {c : Call}
  {data : List UInt8}

theorem call_write_ok (hrun : l.call (.write t) = .ok (0, data, l')) :
    ∃ writer memory, mmapOutWrite l.writer l.memory t.status t.pos t.data t.dataLen =
        .ok (0, writer, memory) ∧ l' = { l with writer := writer, memory := memory } := by
  simp only [Link.call, bind_eq_ok] at hrun
  rcases hrun with ⟨⟨result, writer, memory⟩, hwrite, hresult⟩
  cases hresult
  exact ⟨writer, memory, hwrite, rfl⟩

theorem call_read_ok (hrun : l.call (.read t) = .ok (0, data, l')) :
    ∃ reader memory, mmapInRead l.reader l.memory t.status t.pos t.data t.dataLen =
        .ok (0, data, reader, memory) ∧ l' = { l with reader := reader, memory := memory } := by
  simp only [Link.call, bind_eq_ok] at hrun
  rcases hrun with ⟨⟨result, data', reader, memory⟩, hread, hresult⟩
  cases hresult
  exact ⟨reader, memory, hread, rfl⟩

/-- A write goes into the file. -/
theorem Agrees.write (hlink : Linked l segment size) (h : Agrees l segment f)
    (hrun : l.call (.write t) = .ok (0, data, l')) :
    Linked l' segment size ∧ Agrees l' segment (f.call (.write t)) := by
  rcases call_write_ok hrun with ⟨writer, memory, hwrite, rfl⟩
  rcases hlink.writer with ⟨addr, hout⟩
  rcases mmapOutWrite_ok hout hlink.outPos_nonneg hwrite with ⟨hseek, rfl, rfl⟩
  rw [h.outPos_eq] at hseek ⊢
  refine ⟨⟨⟨addr, hout.moved _ _⟩, hlink.reader, hlink.own, ?_, hlink.inPos_nonneg⟩, ?_, rfl,
    h.inPos_eq⟩
  · have hlen : (0 : Int) ≤ t.bytes.length := Int.natCast_nonneg _
    exact Int.add_nonneg hseek hlen
  · intro i hi
    calc Function.update (patch l.memory (dataCell segment) (seek t.pos f.outPos) t.bytes)
          ⟨segment, 0⟩ (UInt8.ofInt t.status) (dataCell segment i)
        = patch l.memory (dataCell segment) (seek t.pos f.outPos) t.bytes (dataCell segment i) :=
          Function.update_of_ne (dataCell_ne_status hi segment) _ _
      _ = overlay (fun i => l.memory (dataCell segment i)) (seek t.pos f.outPos) t.bytes i :=
          congrFun (patch_row (dataCell_injective segment)) i
      _ = overlay f.content (seek t.pos f.outPos) t.bytes i :=
          overlay_congr (h.content_eq i hi)

/-- A read moves the position of the file, and changes a status byte only. -/
theorem Agrees.read (hlink : Linked l segment size) (h : Agrees l segment f)
    (hrun : l.call (.read t) = .ok (0, data, l')) :
    Linked l' segment size ∧ Agrees l' segment (f.call (.read t)) := by
  rcases call_read_ok hrun with ⟨reader, memory, hread, rfl⟩
  rcases hlink.reader with ⟨addr, hin⟩
  rcases hlink.own with ⟨ownAddr, own, ownSize, hpositive, hown⟩
  rcases mmapInRead_ok hin.inSize_eq hread with ⟨hlen, hdone⟩
  -- the status goes to the reader's own out segment
  have hown' := hown.moved l.reader.outPos (seek t.pos l.reader.inPos)
  have hstatus := hdone.status
  rw [mmapStatusOutSet_run hown' hpositive] at hstatus
  cases hstatus
  cases hdone.process
  refine ⟨⟨hlink.writer, ⟨addr, hin.ptrData, hin.inSize_eq, hin.maps⟩,
    ⟨ownAddr, own, ownSize, hpositive, hown.moved _ _⟩, hlink.outPos_nonneg, ?_⟩, ?_,
    h.outPos_eq, ?_⟩
  · exact Int.add_nonneg (seek_nonneg hlink.inPos_nonneg) hlen
  · intro i hi
    calc Function.update l.memory ⟨own, 0⟩ (UInt8.ofInt t.status) (dataCell segment i)
        = l.memory (dataCell segment i) := Function.update_of_ne (dataCell_ne_status hi own) _ _
      _ = f.content i := h.content_eq i hi
  · simp only [File.call, h.inPos_eq]

/-- A read stores what the file holds if it starts at position 0; past it, if and only if the
reader's own out segment holds the same bytes there. -/
theorem read_exact_iff (hlink : Linked l segment size) (h : Agrees l segment f)
    (hrun : l.call (.read t) = .ok (0, data, l')) :
    data = f.expected t ++ t.data.drop t.dataLen.toNat ↔
      seek t.pos f.inPos = 0 ∨ l.ownBytes f t = some (f.expected t) := by
  rcases call_read_ok hrun with ⟨reader, memory, hread, -⟩
  rcases hlink.reader with ⟨addr, hin⟩
  rcases hlink.own with ⟨ownAddr, own, ownSize, -, hown⟩
  rcases mmapInRead_ok hin.inSize_eq hread with ⟨hlen, hdone⟩
  rcases hdone.copied with ⟨ptr, bytes, hptr, hload, hreplace⟩
  have hdata : data = bytes ++ t.data.drop t.dataLen.toNat := by
    rw [replaceFirst_eq_some hreplace, load_length hload]
  -- the rest of the buffer is the same on both sides
  rw [hdata, List.append_left_inj]
  have hfits := hdone.fits
  simp only [readPtr, h.inPos_eq] at hptr hload hfits
  by_cases hzero : seek t.pos f.inPos = 0
  · -- through the pointer to the in segment
    simp only [hzero, if_true, hin.ptrData, Option.getD_some] at hptr
    cases hptr
    have hbytes : bytes = f.expected t := by
      have hmapped := @load_maps _ _ l.memory _ _ 0 _ (maps_data hin.maps) t.dataLen.toNat
        (Int.le_refl 0) (by omega)
      rw [Int.add_zero, hload] at hmapped
      calc bytes
          = window (fun i => l.memory (dataCell segment i)) 0 t.dataLen.toNat :=
            Option.some.inj hmapped
        _ = window f.content 0 t.dataLen.toNat := window_congr h.content_eq
        _ = f.expected t := by rw [File.expected, hzero]
    simp [hbytes, hzero]
  · -- through an address in the out segment
    simp only [hzero, if_false, hown.address, known, Option.elim] at hptr
    cases hptr
    simp [hzero, Link.ownBytes, hown.address, hload]

end Calls

/-! ## Sequences of calls -/

/-- A call that returns 0, and the same call on the file. -/
def follow (s : Link × File) (c : Call) : Except Unit (Link × File) :=
  match s.1.call c with
  | .ok (result, _, l) => if result = 0 then .ok (l, s.2.call c) else .error ()
  | .error _ => .error ()

/-- A read stores at the beginning of its buffer what the file holds at its position. -/
def Exact (s : Link × File) (c : Call) : Prop :=
  ∀ t data l, c = .read t → s.1.call c = .ok (0, data, l) →
    data = s.2.expected t ++ t.data.drop t.dataLen.toNat

/-- A read starts at data offset 0, or its bytes are those of the reader's own out segment. -/
def AtStart (s : Link × File) (c : Call) : Prop :=
  ∀ t, c = .read t → seek t.pos s.2.inPos = 0 ∨ s.1.ownBytes s.2 t = some (s.2.expected t)

section Sequences

variable {l l' : Link} {f f' : File} {segment : String} {size : Int} {c : Call}

theorem follow_eq_ok {s s' : Link × File} (h : follow s c = .ok s') :
    ∃ data, s.1.call c = .ok (0, data, s'.1) ∧ s'.2 = s.2.call c := by
  unfold follow at h
  split at h
  · split at h
    · cases h
      simp_all
    · cases h
  · cases h

theorem agrees_follow {s s' : Link × File}
    (h : Linked s.1 segment size ∧ Agrees s.1 segment s.2) (hrun : follow s c = .ok s') :
    Linked s'.1 segment size ∧ Agrees s'.1 segment s'.2 := by
  -- one lemma for each kind of call
  rcases follow_eq_ok hrun with ⟨data, hcall, hfile⟩
  rw [hfile]
  cases c with
  | write t =>
      exact h.2.write h.1 hcall
  | read t =>
      exact h.2.read h.1 hcall

theorem exact_iff_atStart {s s' : Link × File}
    (h : Linked s.1 segment size ∧ Agrees s.1 segment s.2) (hrun : follow s c = .ok s') :
    Exact s c ↔ AtStart s c := by
  rcases follow_eq_ok hrun with ⟨data, hcall, -⟩
  constructor
  · rintro hexact t rfl
    exact (read_exact_iff h.1 h.2 hcall).1 (hexact t data s'.1 rfl hcall)
  · rintro hstart t data' l rfl hcall'
    exact (read_exact_iff h.1 h.2 hcall').2 (hstart t rfl)

end Sequences

/-- In every sequence of writes and reads that all return 0, the segment holds what the writes have
left in the file, and the reads give what the file holds, if and only if each of them starts at data
offset 0 or finds the same bytes in the reader's own out segment. -/
theorem round_trip_iff {l l' : Link} {f' : File} {segment : String} {size : Int}
    (hlink : Linked l segment size) (calls : List Call)
    (hrun : runCalls follow (l, l.file segment) calls = .ok (l', f')) :
    Agrees l' segment f' ∧
      (Guarded follow Exact (l, l.file segment) calls ↔
        Guarded follow AtStart (l, l.file segment) calls) := by
  have hstart : Linked l segment size ∧ Agrees l segment (l.file segment) :=
    ⟨hlink, agrees_file l segment⟩
  have hstep : ∀ s c s', (Linked (Prod.fst s) segment size ∧ Agrees s.1 segment s.2) →
      follow s c = .ok s' → Linked s'.1 segment size ∧ Agrees s'.1 segment s'.2 :=
    fun s c s' h hc => agrees_follow h hc
  refine ⟨(runCalls_invariant hstep hstart hrun).2, ?_⟩
  exact guarded_congr hstep (fun s c s' h hc => exact_iff_atStart h hc) hstart hrun

/-- A process with an out and an in segment of 16 bytes at these addresses. -/
def attached (outAddr : Int) (outName : String) (inAddr : Int) (inName : String) : Process :=
  attach (start fun _ => none) 16
    ⟨some outAddr, mapAt outAddr outName 16 fun _ => none⟩ 16
    ⟨some inAddr, mapAt inAddr inName 16 (mapAt outAddr outName 16 fun _ => none)⟩

/-- A server that writes into segment `S` and a client that reads from it. -/
def serverToClient : Link where
  writer := attached 4096 "S" 8192 "C"
  reader := attached 20480 "C" 24576 "S"
  memory := fun _ => 0

theorem linked_serverToClient : Linked serverToClient "S" 16 where
  writer := ⟨4096, outMapped_attach rfl
    (maps_mapAt_of_apart (maps_mapAt _ _ _ _) (.inl (by decide)))⟩
  reader := ⟨24576, inMapped_attach rfl rfl (maps_mapAt _ _ _ _)⟩
  own := ⟨20480, "C", 16, by decide, outMapped_attach rfl
    (maps_mapAt_of_apart (maps_mapAt _ _ _ _) (.inl (by decide)))⟩
  outPos_nonneg := by decide
  inPos_nonneg := by decide

/-- `AB` at position 0 and `C` after it, and then all three read from position 0. -/
def appendAndRead : List Call :=
  [.write ⟨66, 0, [65, 66], 2⟩, .write ⟨67, -1, [67], 1⟩, .read ⟨66, 0, [0, 0, 0, 9], 3⟩]

theorem round_trip_serverToClient :
    ∃ s, runCalls follow (serverToClient, serverToClient.file "S") appendAndRead = .ok s ∧
      Agrees s.1 "S" s.2 ∧
      (Guarded follow Exact (serverToClient, serverToClient.file "S") appendAndRead ↔
        Guarded follow AtStart (serverToClient, serverToClient.file "S") appendAndRead) := by
  have hok : (runCalls follow (serverToClient, serverToClient.file "S") appendAndRead).isOk = true := by
    decide +kernel
  cases hrun : runCalls follow (serverToClient, serverToClient.file "S") appendAndRead with
  | error e =>
      rw [hrun] at hok
      cases hok
  | ok s =>
      exact ⟨s, rfl, round_trip_iff linked_serverToClient appendAndRead hrun⟩

/-- `AB` at position 0, and then one byte read from position 0. -/
def writeAndRead : List Call := [.write ⟨66, 0, [65, 66], 2⟩, .read ⟨66, 0, [0], 1⟩]

def nextByte : Transfer := ⟨66, -1, [0], 1⟩

/-- A client that goes on to the next byte gets one of its own out segment, and not the `B` that
the server has written. -/
theorem continued_read_strays :
    ¬ Guarded follow Exact (serverToClient, serverToClient.file "S")
      (writeAndRead ++ [.read nextByte]) := by
  intro hexact
  have hnext : ((runCalls follow (serverToClient, serverToClient.file "S") writeAndRead).toOption.bind
      fun s => (s.1.call (.read nextByte)).toOption.map
        fun r => (r.1, r.2.1, s.2.expected nextByte)) = some (0, [0], [66]) := by
    decide +kernel
  cases hrun : runCalls follow (serverToClient, serverToClient.file "S") writeAndRead with
  | error e =>
      simp [hrun, Except.toOption] at hnext
  | ok s =>
      cases hcall : s.1.call (.read nextByte) with
      | error e =>
          simp [hrun, hcall, Except.toOption] at hnext
      | ok r =>
          -- the third call returns 0 and stores the byte 0, where the file holds 66
          rcases r with ⟨result, data, l⟩
          simp only [hrun, hcall, Except.toOption, Option.bind_some, Option.map_some,
            Option.some.injEq, Prod.mk.injEq] at hnext
          rcases hnext with ⟨rfl, rfl, hexpected⟩
          have hdata := hexact writeAndRead (.read nextByte) s (List.prefix_refl _) hrun nextByte _
            l rfl hcall
          simp [hexpected] at hdata

end Mmap
end SharedMemory
end LuajitTcpServer
