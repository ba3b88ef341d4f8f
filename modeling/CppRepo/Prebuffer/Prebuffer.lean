import CppRepo.Library.CLibrary

/-!
# The stream buffer with a put-back area

`prebuffer` is a `std::streambuf` on a file descriptor. Its one array serves both directions: the
put area is the array without its last character, and what is read goes to the part from the fifth
character on, with the last characters read before in front of it.

Pointers into the array are offsets from its start. `setp` is called by the constructor only, so
`pbase()` and `epptr()` are constants. An access past the end of the array is undefined behaviour.
`memcpy` copies as if through a copy of the source; the source and the destination overlap after a
short read. The members of `std::streambuf` that are not overridden are those of the standard:
`sputn` puts its characters one after the other. An `int_type` is a character or `EOF`, here `none`.

## The system calls

What the kernel answers is a parameter, `Kernel`: the bytes that reads return, one after the other,
the result of each `read`, and the result of each `write`, which may depend on the number of bytes.
`Descriptor` records what was exchanged.
-/

namespace CppRepo

/-- `FileError`. -/
inductive FileError where
  | invalidFd
  deriving DecidableEq, Repr

/-- `s_buf_size`. -/
def bufSize : ℕ := 4092

/-- `s_pback_size`. -/
def pbackSize : ℕ := 4

/-- `std::ios::out`. -/
def iosOut : UInt32 := 16

/-- `std::ios::in`. -/
def iosIn : UInt32 := 8

/-- The answers of the operating system. -/
structure Kernel where
  /-- The bytes that reads of the descriptor return. -/
  incoming : ℕ → UInt8
  /-- What the reads return as their results. -/
  readResult : ℕ → ℤ
  /-- What the writes return, given the number of bytes. -/
  writeResult : ℕ → ℕ → ℤ

/-- What a descriptor has exchanged so far. -/
structure Descriptor where
  reads : ℕ := 0
  position : ℕ := 0
  /-- Each `write`: the number of bytes asked for, and the result. -/
  writes : List (ℕ × ℤ) := []
  accepted : Bytes := []

/-- `prebuffer`. -/
structure Prebuffer where
  mode : UInt32
  filedes : ℤ
  buffer : ℕ → UInt8
  eback : ℕ
  gptr : ℕ
  egptr : ℕ
  pptr : ℕ

namespace Prebuffer

/-- `pbase()`. -/
def pbase : ℕ := 0

/-- `epptr()`. -/
def epptr : ℕ := bufSize - 1

/-- `is_open()`. -/
def isOpen (b : Prebuffer) : Bool := decide (0 ≤ b.filedes)

/-- `m_mode & std::ios::out`. -/
def hasOut (b : Prebuffer) : Bool := b.mode &&& iosOut != 0

/-- The constructor, with the contents its members have before: `m_mode` keeps its own unless the
descriptor is positive. -/
def new (mode : UInt32) (buffer : ℕ → UInt8) (fd : ℤ) (om : UInt32) (throwException : Bool) :
    Except FileError Prebuffer :=
  if throwException ∧ ¬ 0 ≤ fd then
    .error .invalidFd
  else
    .ok {
      mode := if 0 < fd then om else mode
      filedes := fd
      buffer := buffer
      eback := pbackSize
      gptr := pbackSize
      egptr := pbackSize
      pptr := pbase }

end Prebuffer

/-- A stream buffer and its descriptor. -/
structure PrebufferState where
  buf : Prebuffer
  desc : Descriptor

/-- A member function. -/
abbrev PrebufferM (α : Type) := EStateM (Fault FileError) PrebufferState α

namespace Prebuffer

/-- The array after a write of one character. -/
def setCell (b : Prebuffer) (i : ℕ) (c : UInt8) : Prebuffer :=
  { b with buffer := Function.update b.buffer i c }

/-- The array after a copy inside it. -/
def copyCells (b : Prebuffer) (dest src n : ℕ) : Prebuffer :=
  { b with buffer := fun i ↦
      if dest ≤ i ∧ i < dest + n then b.buffer (src + (i - dest)) else b.buffer i }

theorem copyCells_of_mem {b : Prebuffer} {dest src n i : ℕ} (h : dest ≤ i) (h' : i < dest + n) :
    (b.copyCells dest src n).buffer i = b.buffer (src + (i - dest)) := if_pos ⟨h, h'⟩

theorem copyCells_of_not_mem {b : Prebuffer} {dest src n i : ℕ} (h : ¬ (dest ≤ i ∧ i < dest + n)) :
    (b.copyCells dest src n).buffer i = b.buffer i := if_neg h

end Prebuffer

namespace PrebufferState

/-- The buffer is changed. -/
def mapBuf (f : Prebuffer → Prebuffer) (s : PrebufferState) : PrebufferState :=
  { s with buf := f s.buf }

/-- The next read has stored its bytes in the array from `start` on. -/
def received (k : Kernel) (start : ℕ) (s : PrebufferState) : PrebufferState :=
  let n := (k.readResult s.desc.reads).toNat
  let buffer := fun i ↦
    if start ≤ i ∧ i < start + n then k.incoming (s.desc.position + (i - start))
    else s.buf.buffer i
  ⟨{ s.buf with buffer := buffer },
    { s.desc with reads := s.desc.reads + 1, position := s.desc.position + n }⟩

theorem received_of_mem {k : Kernel} {s : PrebufferState} {start i : ℕ} (h : start ≤ i)
    (h' : i < start + (k.readResult s.desc.reads).toNat) :
    (s.received k start).buf.buffer i = k.incoming (s.desc.position + (i - start)) := if_pos ⟨h, h'⟩

theorem received_of_not_mem {k : Kernel} {s : PrebufferState} {start i : ℕ}
    (h : ¬ (start ≤ i ∧ i < start + (k.readResult s.desc.reads).toNat)) :
    (s.received k start).buf.buffer i = s.buf.buffer i := if_neg h

/-- The next write has taken what it takes of the first `num` characters. -/
def sent (k : Kernel) (num : ℕ) (s : PrebufferState) : PrebufferState :=
  let result := k.writeResult s.desc.writes.length num
  { s with
    desc := { s.desc with
      writes := s.desc.writes ++ [(num, result)]
      accepted := s.desc.accepted ++ (List.range result.toNat).map s.buf.buffer } }

/-- The characters in the put area. -/
def pending (s : PrebufferState) : Bytes := (List.range s.buf.pptr).map s.buf.buffer

end PrebufferState

namespace Prebuffer

variable (k : Kernel)

/-! ## The array and the descriptor

All accesses to the array are made through `load`, `store` and `memcpy`, so these are the places
where a call may be undefined. What a read returns goes to the array at once; a write changes the
descriptor only. -/

/-- Reads a character of the array. -/
def load (i : ℕ) : PrebufferM UInt8 := do
  if i < bufSize then return (← get).buf.buffer i else throw .undefinedBehaviour

/-- Writes a character of the array. -/
def store (i : ℕ) (c : UInt8) : PrebufferM Unit := do
  if i < bufSize then modify (·.mapBuf (·.setCell i c)) else throw .undefinedBehaviour

/-- `std::memcpy` inside the array. -/
def memcpy (dest src n : ℕ) : PrebufferM Unit := do
  if dest + n ≤ bufSize ∧ src + n ≤ bufSize then
    modify (·.mapBuf (·.copyCells dest src n))
  else
    throw .undefinedBehaviour

/-- `::read` into the array from `start` on. The kernel returns at most the number of bytes asked
for, which is what there is room for. -/
def sysRead (start : ℕ) : PrebufferM ℤ := do
  let num := k.readResult (← get).desc.reads
  modify (·.received k start)
  return num

/-- `::write` of the first `num` characters of the array. -/
def sysWrite (num : ℕ) : PrebufferM ℤ := do
  let result := k.writeResult (← get).desc.writes.length num
  modify (·.sent k num)
  return result

section Rules

variable {k} {s : PrebufferState} {i dest src n num : ℕ} {c : UInt8}
  {E : Fault FileError → PrebufferState → Prop}

theorem ensures_load {Q : UInt8 → PrebufferState → Prop} (hi : i < bufSize) :
    Ensures (load i) s Q E ↔ Q (s.buf.buffer i) s := by
  rw [load, if_pos hi, ensures_bind, ensures_get, ensures_pure]

theorem ensures_store {Q : Unit → PrebufferState → Prop} (hi : i < bufSize) :
    Ensures (store i c) s Q E ↔ Q ⟨⟩ (s.mapBuf (·.setCell i c)) := by
  rw [store, if_pos hi, ensures_modify]

theorem ensures_memcpy {Q : Unit → PrebufferState → Prop}
    (hn : dest + n ≤ bufSize ∧ src + n ≤ bufSize) :
    Ensures (memcpy dest src n) s Q E ↔ Q ⟨⟩ (s.mapBuf (·.copyCells dest src n)) := by
  rw [memcpy, if_pos hn, ensures_modify]

theorem ensures_sysRead {Q : ℤ → PrebufferState → Prop} :
    Ensures (sysRead k i) s Q E ↔ Q (k.readResult s.desc.reads) (s.received k i) := by
  rw [sysRead, ensures_bind, ensures_get, ensures_bind, ensures_modify, ensures_pure]

theorem ensures_sysWrite {Q : ℤ → PrebufferState → Prop} :
    Ensures (sysWrite k num) s Q E
      ↔ Q (k.writeResult s.desc.writes.length num) (s.sent k num) := by
  rw [sysWrite, ensures_bind, ensures_get, ensures_bind, ensures_modify, ensures_pure]

end Rules

/-! ## The get area

`underflow` copies first, and then reads. It sets the pointers only if the read has returned
something; the copy is not taken back. -/

/-- `setg(eback, gptr, egptr)`. -/
def setg (eback gptr egptr : ℕ) (b : Prebuffer) : Prebuffer :=
  { b with eback := eback, gptr := gptr, egptr := egptr }

/-- `underflow()`. -/
def underflow : PrebufferM (Option UInt8) := do
  let b := (← get).buf
  if b.gptr < b.egptr then
    return some (← load b.gptr)
  else
    let numPutback := min (b.gptr - b.eback) pbackSize
    memcpy (pbackSize - numPutback) (b.gptr - numPutback) numPutback
    let num ← sysRead k pbackSize
    if num ≤ 0 then
      return none
    else
      modify (·.mapBuf (setg (pbackSize - numPutback) pbackSize (pbackSize + num.toNat)))
      return some (← load pbackSize)

/-- `gbump(1)`. -/
def gbump (b : Prebuffer) : Prebuffer := { b with gptr := b.gptr + 1 }

/-- `gbump(-1)`. -/
def gback (b : Prebuffer) : Prebuffer := { b with gptr := b.gptr - 1 }

/-- `sgetc()`. -/
def sgetc : PrebufferM (Option UInt8) := do
  let b := (← get).buf
  if b.gptr < b.egptr then return some (← load b.gptr) else underflow k

/-- `uflow()`, which is not overridden. -/
def uflow : PrebufferM (Option UInt8) := do
  match ← underflow k with
  | none => return none
  | some _ =>
    let c ← load (← get).buf.gptr
    modify (·.mapBuf gbump)
    return some c

/-- `sbumpc()`. -/
def sbumpc : PrebufferM (Option UInt8) := do
  let b := (← get).buf
  if b.gptr < b.egptr then
    let c ← load b.gptr
    modify (·.mapBuf gbump)
    return some c
  else
    uflow k

/-- `sungetc()`; `pbackfail()` is not overridden and returns `EOF`. -/
def sungetc : PrebufferM (Option UInt8) := do
  let b := (← get).buf
  if b.eback < b.gptr then
    modify (·.mapBuf gback)
    return some (← load (← get).buf.gptr)
  else
    return none

/-! ## The put area

`flushoutput` hands the put area to one `::write` and then takes the put pointer back by all it
has handed over. `overflow` stores its character before that, in the cell that `epptr()` leaves
for it. -/

/-- `pbump(1)`. -/
def pbump (b : Prebuffer) : Prebuffer := { b with pptr := b.pptr + 1 }

/-- `pbump(-num)`. -/
def pback (num : ℕ) (b : Prebuffer) : Prebuffer := { b with pptr := b.pptr - num }

/-- `flushoutput()`. -/
def flushoutput : PrebufferM (Option ℕ) := do
  let b := (← get).buf
  if !b.hasOut || !b.isOpen then
    return none
  else
    let num := b.pptr - pbase
    if (← sysWrite k num) = -1 then
      return none
    else
      modify (·.mapBuf (pback num))
      return some num

/-- Stores a character at `pptr()`, and `pbump(1)`. -/
def putChar (c : UInt8) : PrebufferM Unit := do
  store (← get).buf.pptr c
  modify (·.mapBuf pbump)

/-- `overflow(c)`. The line it prints is left out. -/
def overflow (c : Option UInt8) : PrebufferM (Option UInt8) := do
  let b := (← get).buf
  if !b.hasOut || !b.isOpen then
    return none
  else
    match c with
    | some c => putChar c
    | none => pure ()
    match ← flushoutput k with
    | none => return none
    -- `not_eof(c)`
    | some _ => return some (c.getD 0)

/-- `sputc(c)`. -/
def sputc (c : UInt8) : PrebufferM (Option UInt8) := do
  if (← get).buf.pptr < epptr then
    putChar c
    return some c
  else
    overflow k (some c)

/-- `sputn(s, n)`: the number of characters that were put. -/
def sputn : Bytes → PrebufferM ℕ
  | [] => return 0
  | c :: cs => do
    match ← sputc k c with
    | none => return 0
    | some _ => return 1 + (← sputn cs)

/-- `sync()`. -/
def sync : PrebufferM ℤ := do
  match ← flushoutput k with
  | none => return -1
  | some _ => return 0

/-- `close()`. -/
def close : PrebufferM Unit := do
  if (← get).buf.isOpen then
    let _ ← sync k
    modify (·.mapBuf fun b ↦ { b with mode := 0, filedes := -1 })

/-! ## Calls

A run is a list of calls of one buffer, each on what the one before has left, whether this has
returned or thrown. -/

/-- A call of a member. -/
inductive Op
  | sgetc
  | sbumpc
  | sungetc
  | sputc (c : UInt8)
  | sputn (s : Bytes)
  | sync
  | close
  deriving DecidableEq

/-- What a call returns. -/
inductive Reply
  | char (c : Option UInt8)
  | count (n : ℕ)
  | status (r : ℤ)
  | nothing
  deriving DecidableEq

/-- A call. -/
def call : Op → PrebufferM Reply
  | .sgetc => .char <$> sgetc k
  | .sbumpc => .char <$> sbumpc k
  | .sungetc => .char <$> sungetc
  | .sputc c => .char <$> sputc k c
  | .sputn s => .count <$> sputn k s
  | .sync => .status <$> sync k
  | .close => (fun _ ↦ .nothing) <$> close k

/-- The characters a call puts. -/
def Op.puts : Op → Bytes
  | .sputc c => [c]
  | .sputn s => s
  | .sgetc => []
  | .sbumpc => []
  | .sungetc => []
  | .sync => []
  | .close => []

end Prebuffer

end CppRepo
