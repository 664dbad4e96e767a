import LuajitTcpServer.Lib.ByteMemory

/-!
# Mmap — the mapped segments of `lib_shared_memory.lua`

A process writes into its out segment and reads from its in segment.  Byte 0 of a segment is the
status, the data begins at byte `statusLen`.  Both ends keep a running position, counted from
the first data byte.

* `outAddress_c + n` is the address `n` bytes past the start of the mapping.
* What `sharedMemoryOpen` returns, and what the process sees in its address space after it, is an
  argument of `mmapOutCreate` and `mmapInConnect`.
* What is printed is left out.
-/

namespace LuajitTcpServer
namespace SharedMemory
namespace Mmap

open ByteMemory

/-! ## Memory -/

/-- A byte of memory: byte `offset` of the segment of that name. -/
structure Cell where
  segment : String
  offset : Int
  deriving DecidableEq, Repr

/-- What a process sees after `C.mmap` has mapped `size` bytes of a segment at `addr`. -/
def mapAt (addr : Int) (segment : String) (size : Int) (space : Space Cell) : Space Cell :=
  fun a => if addr ≤ a ∧ a < addr + size then some ⟨segment, a - addr⟩ else space a

/-- Why a call does not return. -/
inductive Fault
  /-- A Lua error: arithmetic, a comparison or an index with `nil`. -/
  | luaError
  /-- An access to an address with nothing behind it, or past the end of a buffer. -/
  | access
  deriving DecidableEq, Repr

/-- The value of a variable that is used as a number or indexed. -/
def known {α : Type} (value : Option α) : Except Fault α := value.elim (.error .luaError) .ok

def accessed {α : Type} (value : Option α) : Except Fault α := value.elim (.error .access) .ok

/-! ## State -/

/-- `-1`: at the running position. -/
def append : Int := -1

def statusLen : Int := 1

/-- The local variables of the module, and what the process sees at each address. -/
structure Process where
  space : Space Cell
  inPos : Int
  outPos : Int
  inAddress : Option Int
  outAddress : Option Int
  inPtrStatus : Option Int
  inPtrData : Option Int
  outPtrStatus : Option Int
  outPtrData : Option Int
  inSize : Option Int
  outSize : Option Int
  outMaxSize : Option Int

/-- After the module has been loaded. -/
def start (space : Space Cell) : Process :=
  { space := space
    inPos := 0
    outPos := 0
    inAddress := none
    outAddress := none
    inPtrStatus := none
    inPtrData := none
    outPtrStatus := none
    outPtrData := none
    inSize := none
    outSize := none
    outMaxSize := none }

/-- What `sharedMemoryOpen` has returned, and what the process sees after it. -/
structure Opened where
  address : Option Int
  space : Space Cell

/-- `not address or address == INVALID_HANDLE_VALUE`. -/
def Opened.failed (opened : Opened) : Bool :=
  opened.address = none || opened.address = some (-1)

/-! ## Connecting -/

/-- `util.getOffsetPointer`; the cast makes a zero of `nil`. -/
def getOffsetPointer (cdata : Option Int) (offset : Int) : Int := cdata.getD 0 + offset

def mmapAddressSet (p : Process) : Process :=
  { p with
    outPtrStatus := some (getOffsetPointer p.outAddress 0)
    outPtrData := some (getOffsetPointer p.outAddress statusLen)
    inPtrStatus := some (getOffsetPointer p.inAddress 0)
    inPtrData := some (getOffsetPointer p.inAddress statusLen) }

def mmapInConnect (p : Process) (bufferSize : Int) (opened : Opened) : Int × Process :=
  let inSize := if opened.failed then 0 else bufferSize
  (inSize, { p with inSize := some inSize, inAddress := opened.address, space := opened.space })

def mmapOutCreate (p : Process) (bufferSize : Int) (opened : Opened) : Int × Process :=
  (if opened.failed then 0 else bufferSize,
    { p with
      outSize := some bufferSize
      outMaxSize := some (bufferSize - statusLen)
      outAddress := opened.address
      space := opened.space })

/-- A process with its two segments, as `AppSharedMemory.lua` sets it up. -/
def attach (p : Process) (outSize : Int) (outOpened : Opened) (inSize : Int) (inOpened : Opened) :
    Process :=
  mmapAddressSet (mmapInConnect (mmapOutCreate p outSize outOpened).2 inSize inOpened).2

/-! ## Copying -/

/-- `C.strlen`, with the search kept inside the buffer. -/
def strlen (data : List UInt8) : Option Nat := data.findIdx? (· = 0)

/-- The source of an `ffi.copy` of `len` bytes out of a buffer. -/
def firstBytes (data : List UInt8) (len : Int) : Option (List UInt8) :=
  if len ≤ data.length then some (data.take len.toNat) else none

/-- The buffer after an `ffi.copy` of `bytes` into it. -/
def replaceFirst (data bytes : List UInt8) : Option (List UInt8) :=
  if bytes.length ≤ data.length then some (bytes ++ data.drop bytes.length) else none

/-- `outPtrStatus[0] = stat`, an `int8_t`. -/
def mmapStatusOutSet (p : Process) (memory : Memory Cell) (stat : Int) :
    Except Fault (Memory Cell) := do
  let ptr ← known p.outPtrStatus
  accessed (store p.space memory ptr [UInt8.ofInt stat])

/-- The destination of a write: the pointer set by `mmapAddressSet`, or an address past it. -/
def writePtr (p : Process) : Except Fault Int :=
  if p.outPos = 0 then pure (p.outPtrData.getD 0)
  else (known p.outAddress).map (· + statusLen + p.outPos)

/-- The source of a read.  Past position 0 its address is computed from `outAddress_c`. -/
def readPtr (p : Process) : Except Fault Int :=
  if p.inPos = 0 then pure (p.inPtrData.getD 0)
  else (known p.outAddress).map (· + p.inPos + statusLen)

/-- The end of `mmapOutWrite`, after the checks. -/
def copyOut (p : Process) (memory : Memory Cell) (status : Int) (data : List UInt8)
    (dataLen : Int) : Except Fault (Int × Process × Memory Cell) := do
  let ptr ← writePtr p
  let bytes ← accessed (firstBytes data dataLen)
  let memory ← accessed (store p.space memory ptr bytes)
  let memory ← mmapStatusOutSet p memory status
  pure (0, { p with outPos := p.outPos + dataLen }, memory)

/-- The length of a write: that of the C string, if `dataLen` is not positive. -/
def outLen (data : List UInt8) (dataLen : Int) : Except Fault Int :=
  if dataLen < 1 then (accessed (strlen data)).map Int.ofNat else pure dataLen

def mmapOutWrite (p : Process) (memory : Memory Cell) (status pos : Int) (data : List UInt8)
    (dataLen : Int) : Except Fault (Int × Process × Memory Cell) := do
  let dataLen ← outLen data dataLen
  if dataLen < 1 then pure (-4, p, memory)
  else
    let outMaxSize ← known p.outMaxSize
    if pos > append then
      if pos > outMaxSize - 1 then pure (-2, p, memory)
      else if pos + dataLen > outMaxSize then pure (-3, p, memory)
      else copyOut { p with outPos := pos } memory status data dataLen
    else if p.outPos + dataLen > outMaxSize then pure (-3, p, memory)
    else copyOut p memory status data dataLen

/-- The end of `mmapInRead`, after the checks. -/
def copyIn (p : Process) (memory : Memory Cell) (status : Int) (data : List UInt8)
    (dataLen : Int) : Except Fault (Int × List UInt8 × Process × Memory Cell) := do
  let ptr ← readPtr p
  let bytes ← accessed (load p.space memory ptr dataLen.toNat)
  let data ← accessed (replaceFirst data bytes)
  let memory ← mmapStatusOutSet p memory status
  pure (0, data, { p with inPos := p.inPos + dataLen }, memory)

/-- The checks of `mmapInRead` on the position, and the copy. -/
def readFrom (p : Process) (memory : Memory Cell) (inMaxSize status : Int) (data : List UInt8)
    (dataLen : Int) : Except Fault (Int × List UInt8 × Process × Memory Cell) :=
  if p.inPos > inMaxSize then pure (-4, data, p, memory)
  else if p.inPos + dataLen > inMaxSize then pure (-5, data, p, memory)
  else copyIn p memory status data dataLen

def mmapInRead (p : Process) (memory : Memory Cell) (status pos : Int) (data : List UInt8)
    (dataLen : Int) : Except Fault (Int × List UInt8 × Process × Memory Cell) := do
  if dataLen < 0 then pure (-2, data, p, memory)
  else
    let inSize ← known p.inSize
    let inMaxSize := inSize - statusLen
    if pos > append then
      if pos > inMaxSize - 1 then pure (-3, data, p, memory)
      else readFrom { p with inPos := pos } memory inMaxSize status data dataLen
    else readFrom p memory inMaxSize status data dataLen

end Mmap
end SharedMemory
end LuajitTcpServer
