import CppRepo.Http.Client

/-!
# The output buffer of a response head

`StaticOutputBufferer` is a `std::streambuf` whose put area is a fixed array. The put area ends one
slot before the array does: `overflow` stores the character that did not fit in that last slot and
hands the whole array to the sink, so a write that reaches the end costs one `write_data` and not
two.

The array, the put pointer and the sink's state are explicit. A store outside the array and a put
pointer before its start are undefined behaviour, so a run that never ends that way stays inside.
`sputn` is `std::streambuf::xsputn`: it stores while the put area has room and calls `overflow` with
the next character when it has none.

## The invariant

Between calls the put pointer is at most the end of the put area. What the sink was given, followed
by what is pending, only ever grows at the end, by exactly the characters `sputn` took. The pointer
is reset before `write_data` is called, so an exception loses nothing: what was pending has been
passed on, and nothing is passed on twice.
-/

namespace CppRepo

/-- A value of the template parameter: at least one character, and an `int` can count the array. -/
structure BufferSize where
  val : ℕ
  /-- The class's static assertion. -/
  pos : 0 < val
  le_intMax : val ≤ intMax

/-- `BuffererSink`: sends exactly the bytes it is given, or throws. -/
structure BuffererSink (ω : Type) where
  writeData : Bytes → EStateM Exception ω UInt64

/-- The bufferer with its array, the offset of `pptr()` from `pbase()`, and the sink. -/
structure StaticOutputBufferer (N : BufferSize) (ω : Type) where
  sink : ω
  buffer : Vector UInt8 N.val
  pptr : ℕ

namespace StaticOutputBufferer

variable {N : BufferSize} {ω : Type}

/-- A member function of the bufferer. -/
abbrev Member (N : BufferSize) (ω α : Type) :=
  EStateM (Fault Exception) (StaticOutputBufferer N ω) α

/-- The constructor: `setp` over an array whose contents are arbitrary. -/
def new (buffer : Vector UInt8 N.val) (sink : ω) : StaticOutputBufferer N ω := ⟨sink, buffer, 0⟩

/-- The offset of `epptr()`: the last slot of the array is not in the put area. -/
def epptr (N : BufferSize) : ℕ := N.val - 1

theorem lt_of_lt_epptr {i : ℕ} (h : i < epptr N) : i < N.val := h.trans_le (Nat.sub_le N.val 1)

private theorem lt_of_le_epptr {i : ℕ} (h : i ≤ epptr N) : i < N.val := by
  have hpos := N.pos
  rw [epptr] at h
  omega

/-- The bytes in `[pbase, pptr)`. -/
def pending (s : StaticOutputBufferer N ω) : Bytes := s.buffer.toList.take s.pptr

/-- `*pptr() = c`. -/
def store (c : UInt8) : Member N ω Unit := do
  let s ← get
  if h : s.pptr < N.val then
    set { s with buffer := s.buffer.set s.pptr c h }
  else
    throw .undefinedBehaviour

/-- `pbump(n)`. -/
def pbump (n : Int32) : Member N ω Unit := do
  let s ← get
  match (s.pptr : ℤ) + n.toInt with
  | .ofNat k => set { s with pptr := k }
  | .negSucc _ => throw .undefinedBehaviour

/-- `sync`. The length is a `size_t`, so the argument of the second `pbump` is its negation modulo
`2^64`, cut down to an `int`. -/
def sync (sink : BuffererSink ω) : Member N ω ℤ := do
  let len := UInt64.ofNat (← get).pptr
  pbump (-len).toUInt32.toInt32
  let buf ← charRange (← get).buffer.toList len.toNat
  let _ ← zoom (·.sink) (fun w s ↦ { s with sink := w })
    (mapError Fault.thrown (sink.writeData buf))
  return 0

/-- `overflow`. The result is the character, or nothing for `eof()`. -/
def overflow (sink : BuffererSink ω) (c : UInt8) : Member N ω (Option UInt8) := do
  store c
  pbump 1
  if (← sync sink) = 0 then
    return some c
  else
    return none

/-- One character of `xsputn`: into the put area if it has room, else to `overflow`. -/
def sputc (sink : BuffererSink ω) (c : UInt8) : Member N ω (Option UInt8) := do
  if (← get).pptr < epptr N then
    store c
    pbump 1
    return some c
  else
    overflow sink c

/-- `sputn`, and how many characters it wrote. -/
def sputn (sink : BuffererSink ω) : Bytes → Member N ω ℕ
  | [] => return 0
  | c :: cs => do
    match ← sputc sink c with
    | none => return 0
    | some _ => return (← sputn sink cs) + 1

def pubsync (sink : BuffererSink ω) : Member N ω ℤ := sync sink

/-! ## One character and one synchronization

A store in the array and a reset of the pointer are the two changes a buffer can undergo, and `push`
and `reset` name their results. The specifications below say which of them a member makes, so no
proof after this section looks into the array. The conversions of `pbump` and of the length that it
negates are exact for every size an `int` can hold. -/

/-- Storing a character and moving past it. -/
def push (s : StaticOutputBufferer N ω) (c : UInt8) (h : s.pptr < N.val) :
    StaticOutputBufferer N ω :=
  { s with buffer := s.buffer.set s.pptr c h, pptr := s.pptr + 1 }

@[simp] theorem sink_push (s : StaticOutputBufferer N ω) (c : UInt8) (h : s.pptr < N.val) :
    (s.push c h).sink = s.sink := rfl

@[simp] theorem pptr_push (s : StaticOutputBufferer N ω) (c : UInt8) (h : s.pptr < N.val) :
    (s.push c h).pptr = s.pptr + 1 := rfl

theorem pending_push (s : StaticOutputBufferer N ω) (c : UInt8) (h : s.pptr < N.val) :
    (s.push c h).pending = s.pending ++ [c] := by
  have hlen : s.pptr < s.buffer.toList.length := by simpa using h
  rw [pending, pending, push, Vector.toList_set, List.take_add_one, List.take_set_of_le le_rfl,
    List.getElem?_set_self hlen]
  rfl

/-- The put pointer at the start and the sink in a new state: what every `sync` leaves. -/
def reset (s : StaticOutputBufferer N ω) (w : ω) : StaticOutputBufferer N ω :=
  { s with sink := w, pptr := 0 }

@[simp] theorem sink_reset (s : StaticOutputBufferer N ω) (w : ω) : (s.reset w).sink = w := rfl

@[simp] theorem pptr_reset (s : StaticOutputBufferer N ω) (w : ω) : (s.reset w).pptr = 0 := rfl

@[simp] theorem pending_reset (s : StaticOutputBufferer N ω) (w : ω) :
    (s.reset w).pending = [] := by
  rw [pending, pptr_reset, List.take_zero]

private theorem toInt_neg_length {k : ℕ} (hk : k ≤ intMax) :
    (-(UInt64.ofNat k)).toUInt32.toInt32.toInt = -(k : ℤ) := by
  have h32 : (-(UInt64.ofNat k)).toUInt32 = -(UInt32.ofNat k) := by
    rw [UInt64.toUInt32_neg, UInt64.toUInt32_ofNat']
  have hneg : (-(UInt32.ofNat k)).toInt32 = -(Int32.ofNat k) := by
    rw [UInt32.toInt32_neg, UInt32.toInt32_ofNat']
  rw [intMax] at hk
  rw [h32, hneg, Int32.toInt_neg, Int32.toInt_ofNat_of_lt (by omega),
    Int.bmod_eq_of_le (by omega) (by omega)]

section Specs

variable {s : StaticOutputBufferer N ω} {sink : BuffererSink ω} {c : UInt8}

theorem ensures_store (h : s.pptr < N.val) {Q : Unit → StaticOutputBufferer N ω → Prop}
    {E : Fault Exception → StaticOutputBufferer N ω → Prop} :
    Ensures (store c) s Q E ↔ Q () { s with buffer := s.buffer.set s.pptr c h } := by
  rw [store, ensures_bind, ensures_get, dif_pos h, ensures_set]

theorem ensures_pbump {n : Int32} {k : ℕ} (h : (s.pptr : ℤ) + n.toInt = k)
    {Q : Unit → StaticOutputBufferer N ω → Prop}
    {E : Fault Exception → StaticOutputBufferer N ω → Prop} :
    Ensures (pbump n) s Q E ↔ Q () { s with pptr := k } := by
  rw [pbump, ensures_bind, ensures_get, h]
  exact ensures_set

private theorem ensures_pbump_one {Q : Unit → StaticOutputBufferer N ω → Prop}
    {E : Fault Exception → StaticOutputBufferer N ω → Prop} :
    Ensures (pbump 1) s Q E ↔ Q () { s with pptr := s.pptr + 1 } :=
  ensures_pbump (by rw [Nat.cast_add]; rfl)

/-- **What a synchronization does**: the sink is given what is pending, and whether it throws or
not nothing is pending afterwards. -/
theorem ensures_sync (h : s.pptr ≤ N.val) {Q : ℤ → StaticOutputBufferer N ω → Prop}
    {E : Fault Exception → StaticOutputBufferer N ω → Prop} :
    Ensures (sync sink) s Q E ↔ Ensures (sink.writeData s.pending) s.sink
      (fun _ w ↦ Q 0 (s.reset w)) fun e w ↦ E (.thrown e) (s.reset w) := by
  have hmax : s.pptr ≤ intMax := h.trans N.le_intMax
  have hlen : (UInt64.ofNat s.pptr).toNat = s.pptr := by
    exact UInt64.toNat_ofNat_of_lt' (lt_of_le_of_lt hmax (by decide))
  have hback : (s.pptr : ℤ) + (-(UInt64.ofNat s.pptr)).toUInt32.toInt32.toInt = (0 : ℕ) := by
    rw [toInt_neg_length hmax]
    omega
  rw [sync, ensures_bind, ensures_get, ensures_bind, ensures_pbump hback]
  simp only [ensures_bind, ensures_get, ensures_zoom, ensures_mapError, ensures_pure, charRange,
    hlen, Vector.length_toList, h, if_true]
  rfl

/-- **What an overflow does**: the sink is given the pending bytes and the character. -/
theorem ensures_overflow (h : s.pptr < N.val)
    {Q : Option UInt8 → StaticOutputBufferer N ω → Prop}
    {E : Fault Exception → StaticOutputBufferer N ω → Prop} :
    Ensures (overflow sink c) s Q E ↔ Ensures (sink.writeData (s.pending ++ [c])) s.sink
      (fun _ w ↦ Q (some c) ((s.push c h).reset w))
      fun e w ↦ E (.thrown e) ((s.push c h).reset w) := by
  have hle : (s.push c h).pptr ≤ N.val := h
  rw [overflow, ensures_bind, ensures_store h, ensures_bind, ensures_pbump_one, ensures_bind]
  rw [← pending_push s c h, ← sink_push s c h]
  exact (ensures_sync hle).trans (by simp only [if_true, ensures_pure])

/-- With room in the put area the sink is not called. -/
theorem ensures_sputc_of_lt (h : s.pptr < epptr N)
    {Q : Option UInt8 → StaticOutputBufferer N ω → Prop}
    {E : Fault Exception → StaticOutputBufferer N ω → Prop} :
    Ensures (sputc sink c) s Q E
      ↔ Q (some c) (s.push c (lt_of_lt_epptr h)) := by
  rw [sputc, ensures_bind, ensures_get, if_pos h, ensures_bind,
    ensures_store (lt_of_lt_epptr h), ensures_bind, ensures_pbump_one]
  rfl

private theorem sputc_of_not_lt (h : ¬s.pptr < epptr N) : sputc sink c s = overflow sink c s := by
  change (if s.pptr < epptr N then (do store c; pbump 1; return some c)
    else overflow sink c : Member N ω (Option UInt8)) s = _
  rw [if_neg h]

private theorem ensures_sputc_of_not_lt (h : ¬s.pptr < epptr N)
    {Q : Option UInt8 → StaticOutputBufferer N ω → Prop}
    {E : Fault Exception → StaticOutputBufferer N ω → Prop} :
    Ensures (sputc sink c) s Q E ↔ Ensures (overflow sink c) s Q E := by
  rw [Ensures, Ensures, sputc_of_not_lt h]

end Specs

/-! ## Conservation

Stated for any account `given` of what the sink was handed that grows by exactly the buffer of each
`write_data`, whether the call returns or throws, and for any invariant of the sink. The exceptions
the sink can throw are kept track of: a sink that throws none makes a bufferer that throws none. -/

/-- From states satisfying `I`, the sink throws only exceptions in `F` and stays in `I`, and `given`
says what it was handed. -/
def Keeps (sink : BuffererSink ω) (given : ω → Bytes) (I : ω → Prop) (F : Exception → Prop) :
    Prop :=
  ∀ buf w, I w → Ensures (sink.writeData buf) w (fun _ w' ↦ I w' ∧ given w' = given w ++ buf)
    fun x w' ↦ F x ∧ I w' ∧ given w' = given w ++ buf

/-- The put pointer is in the put area and the sink in a state it promised to stay in. -/
def Settled (I : ω → Prop) (s : StaticOutputBufferer N ω) : Prop := s.pptr ≤ epptr N ∧ I s.sink

/-- Everything the bufferer took: what it handed on and what is still pending. -/
def taken (given : ω → Bytes) (s : StaticOutputBufferer N ω) : Bytes := given s.sink ++ s.pending

/-- The characters of one `sputn` that were taken: all of them, or those up to and including the
character whose `overflow` threw. -/
def accepted (sink : BuffererSink ω) : Bytes → StaticOutputBufferer N ω → Bytes
  | [], _ => []
  | c :: cs, s =>
    match sputc sink c s with
    | .ok _ t => c :: accepted sink cs t
    | .error _ _ => [c]

section Conservation

variable {sink : BuffererSink ω} {given : ω → Bytes} {I : ω → Prop} {F : Exception → Prop}
  {s : StaticOutputBufferer N ω}

theorem ensures_pubsync_taken (hkeeps : Keeps sink given I F) (h : Settled I s) :
    Ensures (pubsync sink) s (fun _ t ↦ t.pptr = 0 ∧ Settled I t ∧ taken given t = taken given s)
      fun e t ↦ (∃ x, F x ∧ e = .thrown x) ∧ Settled I t ∧ taken given t = taken given s := by
  have htaken : ∀ w, given w = given s.sink ++ s.pending →
      taken given (s.reset w) = taken given s := by
    intro w hw
    rw [taken, sink_reset, pending_reset, List.append_nil, hw, taken]
  rw [pubsync, ensures_sync (lt_of_le_epptr h.1).le]
  refine (hkeeps s.pending s.sink h.2).mono ?_ ?_
  · rintro _ w ⟨hI, hw⟩
    exact ⟨rfl, ⟨Nat.zero_le _, hI⟩, htaken w hw⟩
  · rintro x w ⟨hF, hI, hw⟩
    exact ⟨⟨x, hF, rfl⟩, ⟨Nat.zero_le _, hI⟩, htaken w hw⟩

private theorem ensures_sputc_taken (hkeeps : Keeps sink given I F) (c : UInt8) (h : Settled I s) :
    Ensures (sputc sink c) s
      (fun r t ↦ r = some c ∧ Settled I t ∧ taken given t = taken given s ++ [c])
      fun e t ↦ (∃ x, F x ∧ e = .thrown x) ∧ Settled I t ∧
        taken given t = taken given s ++ [c] := by
  by_cases hlt : s.pptr < epptr N
  · rw [ensures_sputc_of_lt hlt]
    refine ⟨rfl, ⟨hlt, h.2⟩, ?_⟩
    rw [taken, sink_push, pending_push, taken, List.append_assoc]
  · have htaken : ∀ w, given w = given s.sink ++ (s.pending ++ [c]) →
        taken given ((s.push c (lt_of_le_epptr h.1)).reset w) = taken given s ++ [c] := by
      intro w hw
      rw [taken, sink_reset, pending_reset, List.append_nil, hw, taken, List.append_assoc]
    rw [ensures_sputc_of_not_lt hlt, ensures_overflow (lt_of_le_epptr h.1)]
    refine (hkeeps (s.pending ++ [c]) s.sink h.2).mono ?_ ?_
    · rintro _ w ⟨hI, hw⟩
      exact ⟨rfl, ⟨Nat.zero_le _, hI⟩, htaken w hw⟩
    · rintro x w ⟨hF, hI, hw⟩
      exact ⟨⟨x, hF, rfl⟩, ⟨Nat.zero_le _, hI⟩, htaken w hw⟩

theorem ensures_sputn_taken (hkeeps : Keeps sink given I F) (cs : Bytes) :
    ∀ s : StaticOutputBufferer N ω, Settled I s → Ensures (sputn sink cs) s
      (fun n t ↦ n = cs.length ∧ Settled I t ∧ taken given t = taken given s ++ cs)
      fun e t ↦ (∃ x, F x ∧ e = .thrown x) ∧ Settled I t ∧
        taken given t = taken given s ++ accepted sink cs s := by
  induction cs with
  | nil => intro s h; exact ⟨rfl, h, (List.append_nil _).symm⟩
  | cons c cs ih =>
    intro s h
    have hc := ensures_sputc_taken hkeeps c h
    rw [sputn, ensures_bind]
    cases hx : sputc sink c s with
    | ok r t =>
      obtain ⟨rfl, ht, htaken⟩ := hc.of_ok hx
      rw [Ensures, hx]
      simp only [ensures_bind, ensures_pure]
      refine (ih t ht).mono ?_ ?_
      · rintro n u ⟨rfl, hu, htaken'⟩
        exact ⟨rfl, hu, by rw [htaken', htaken, List.append_assoc, List.singleton_append]⟩
      · rintro e u ⟨he, hu, htaken'⟩
        refine ⟨he, hu, ?_⟩
        rw [htaken', htaken, accepted, hx, List.append_assoc, List.singleton_append]
    | error e t =>
      obtain ⟨he, ht, htaken⟩ := hc.of_error hx
      rw [Ensures, hx]
      exact ⟨he, ht, by rw [htaken, accepted, hx]⟩

private theorem ensures_sputn_accepted (hkeeps : Keeps sink given I F) (cs : Bytes) :
    ∀ s : StaticOutputBufferer N ω, Settled I s → Ensures (sputn sink cs) s
      (fun _ _ ↦ accepted sink cs s = cs)
      fun e t ↦ ∃ pre c post u, cs = pre ++ c :: post ∧ sputn sink pre s = .ok pre.length u ∧
        overflow sink c u = .error e t ∧ accepted sink cs s = pre ++ [c] := by
  induction cs with
  | nil => intro s _; exact rfl
  | cons c cs ih =>
    intro s h
    have hc := ensures_sputc_taken hkeeps c h
    rw [sputn, ensures_bind]
    cases hx : sputc sink c s with
    | ok r t =>
      obtain ⟨rfl, ht, _⟩ := hc.of_ok hx
      rw [Ensures, hx]
      simp only [ensures_bind, ensures_pure, accepted, hx]
      refine (ih t ht).mono (fun n u hall ↦ by rw [hall]) ?_
      rintro e v ⟨pre, c', post, u, rfl, hpre, hover, hacc⟩
      refine ⟨c :: pre, c', post, u, rfl, ?_, hover, by rw [hacc, List.cons_append]⟩
      simp only [sputn, bind, EStateM.bind, hx, hpre]
      rfl
    | error e t =>
      rw [Ensures, hx]
      have hlt : ¬s.pptr < epptr N := by
        intro hlt
        have hok : Ensures (sputc sink c) s (fun _ _ ↦ True) fun _ _ ↦ False :=
          (ensures_sputc_of_lt hlt).mpr trivial
        exact hok.of_error hx
      have hover : overflow sink c s = .error e t := by rw [← sputc_of_not_lt hlt, hx]
      exact ⟨[], c, cs, s, rfl, rfl, hover, by rw [accepted, hx, List.nil_append]⟩

end Conservation

/-! ## Runs

The sink is recorded for the length of a run: what it was handed is then part of the state, and the
account of the section before applies to it. `acceptedRun` is what the calls of a run have taken
from their callers. -/

/-- A call on the bufferer. -/
inductive Op where
  | sputn (bytes : Bytes)
  | pubsync

/-- Makes a call; the value is what it returns. -/
def invoke (sink : BuffererSink ω) : Op → Member N ω ℤ
  | .sputn bytes => do return ((← sputn sink bytes : ℕ) : ℤ)
  | .pubsync => pubsync sink

/-- The characters a sequence of calls takes. -/
def acceptedRun (sink : BuffererSink ω) : List Op → StaticOutputBufferer N ω → Bytes
  | [], _ => []
  | .sputn bytes :: ops, s =>
    accepted sink bytes s ++ acceptedRun sink ops (after (sputn sink bytes) s)
  | .pubsync :: ops, s => acceptedRun sink ops (after (pubsync sink) s)

/-- A sink that keeps, oldest first, the buffers it was given, and otherwise behaves as `sink`. -/
def loggedSink (sink : BuffererSink ω) : BuffererSink (List Bytes × ω) where
  writeData buf := fun s ↦
    match sink.writeData buf s.2 with
    | .ok n w => .ok n (s.1 ++ [buf], w)
    | .error e w => .error e (s.1 ++ [buf], w)

private theorem loggedSink_keeps (sink : BuffererSink ω) :
    Keeps (loggedSink sink) (fun s ↦ s.1.flatten) (fun _ ↦ True) fun _ ↦ True := by
  intro buf s _
  cases h : sink.writeData buf s.2 <;> simp [Ensures, loggedSink, h]

section Runs

variable {sink : BuffererSink ω} {given : ω → Bytes} {I : ω → Prop} {F : Exception → Prop}

/-- One call keeps the put pointer inside the put area, never leaves the array, and adds to what was
taken exactly the characters it accepts. -/
theorem ensures_invoke_taken (hkeeps : Keeps sink given I F) (op : Op)
    {s : StaticOutputBufferer N ω} (h : Settled I s) :
    Ensures (invoke sink op) s
      (fun _ t ↦ Settled I t ∧ taken given t = taken given s ++ acceptedRun sink [op] s)
      fun e t ↦ (∃ x, F x ∧ e = .thrown x) ∧ Settled I t ∧
        taken given t = taken given s ++ acceptedRun sink [op] s := by
  cases op with
  | sputn bytes =>
    have hacc := ensures_sputn_accepted hkeeps bytes s h
    have htaken := ensures_sputn_taken hkeeps bytes s h
    rw [invoke, ensures_bind, Ensures]
    simp only [acceptedRun, List.append_nil]
    cases hx : sputn sink bytes s with
    | ok n t =>
      obtain ⟨_, ht, htaken⟩ := htaken.of_ok hx
      exact ⟨ht, by rw [htaken, hacc.of_ok hx]⟩
    | error e t => exact htaken.of_error hx
  | pubsync =>
    simp only [invoke, acceptedRun, List.append_nil]
    exact (ensures_pubsync_taken hkeeps h).mono (fun _ _ ht ↦ ht.2) fun _ _ ht ↦ ht

private theorem after_invoke_sputn (bytes : Bytes) (s : StaticOutputBufferer N ω) :
    after (invoke sink (.sputn bytes)) s = after (sputn sink bytes) s := by
  simp only [after, invoke, bind, EStateM.bind]
  cases sputn sink bytes s <;> rfl

private theorem acceptedRun_cons (op : Op) (ops : List Op) (s : StaticOutputBufferer N ω) :
    acceptedRun sink (op :: ops) s
      = acceptedRun sink [op] s ++ acceptedRun sink ops (after (invoke sink op) s) := by
  cases op with
  | sputn bytes => rw [acceptedRun, acceptedRun, acceptedRun, List.append_nil, after_invoke_sputn]
  | pubsync => rfl

private theorem runAll_taken (hkeeps : Keeps sink given I F) (ops : List Op) :
    ∀ s : StaticOutputBufferer N ω, Settled I s →
      Settled I (runAll (invoke sink) ops s).2 ∧
        (∀ r ∈ (runAll (invoke sink) ops s).1, r ≠ .error .undefinedBehaviour) ∧
        taken given (runAll (invoke sink) ops s).2 = taken given s ++ acceptedRun sink ops s := by
  induction ops with
  | nil => intro s h; exact ⟨h, by simp, (List.append_nil _).symm⟩
  | cons op ops ih =>
    intro s h
    have hop := ensures_invoke_taken hkeeps op h
    rw [acceptedRun_cons, ← List.append_assoc]
    cases hx : invoke sink op s with
    | ok n t =>
      obtain ⟨ht, htaken⟩ := hop.of_ok hx
      rw [runAll_cons_of_ok hx, after_of_ok hx, ← htaken]
      obtain ⟨hset, hno, hrun⟩ := ih t ht
      exact ⟨hset, List.forall_mem_cons.mpr ⟨by simp, hno⟩, hrun⟩
    | error e t =>
      obtain ⟨⟨x, _, rfl⟩, ht, htaken⟩ := hop.of_error hx
      rw [runAll_cons_of_error hx, after_of_error hx, ← htaken]
      obtain ⟨hset, hno, hrun⟩ := ih t ht
      exact ⟨hset, List.forall_mem_cons.mpr ⟨by simp, hno⟩, hrun⟩

end Runs

/-- **Nothing is lost, repeated or reordered.** After any sequence of calls, whatever the sink does:
the buffers the sink was given, in order, and the pending bytes are the accepted characters; the put
pointer is inside the put area; no store left the array; and the next call accepts its whole
argument if it returns, and if it throws, the characters up to and including the one whose
`overflow` threw; after a `pubsync` that returns nothing is pending. -/
theorem staticOutputBufferer_conserves (sink : BuffererSink ω) (array : Vector UInt8 N.val) (w : ω)
    (ops : List Op) :
    let start : StaticOutputBufferer N (List Bytes × ω) := new array ([], w)
    let run := runAll (invoke (loggedSink sink)) ops start
    run.2.sink.1.flatten ++ run.2.pending = acceptedRun (loggedSink sink) ops start ∧
      run.2.pptr ≤ N.val - 1 ∧
      (∀ r ∈ run.1, r ≠ .error .undefinedBehaviour) ∧
      (∀ bytes n t, sputn (loggedSink sink) bytes run.2 = .ok n t →
        n = bytes.length ∧ accepted (loggedSink sink) bytes run.2 = bytes) ∧
      (∀ bytes e t, sputn (loggedSink sink) bytes run.2 = .error e t →
        ∃ pre c post u, bytes = pre ++ c :: post ∧
          sputn (loggedSink sink) pre run.2 = .ok pre.length u ∧
          overflow (loggedSink sink) c u = .error e t ∧
          accepted (loggedSink sink) bytes run.2 = pre ++ [c]) ∧
      ∀ n t, pubsync (loggedSink sink) run.2 = .ok n t → t.pending = [] := by
  intro start run
  have hkeeps := loggedSink_keeps sink
  obtain ⟨hset, hno, htaken⟩ := runAll_taken hkeeps ops start ⟨Nat.zero_le _, trivial⟩
  have hstart : taken (fun s : List Bytes × ω ↦ s.1.flatten) start = [] := rfl
  rw [hstart, List.nil_append] at htaken
  refine ⟨htaken, hset.1, hno, fun bytes n t hx ↦ ?_, fun bytes e t hx ↦ ?_, fun n t hx ↦ ?_⟩
  · exact ⟨((ensures_sputn_taken hkeeps bytes _ hset).of_ok hx).1,
      (ensures_sputn_accepted hkeeps bytes _ hset).of_ok hx⟩
  · exact (ensures_sputn_accepted hkeeps bytes _ hset).of_error hx
  · have hzero := ((ensures_pubsync_taken hkeeps hset).of_ok hx).1
    rw [pending, hzero, List.take_zero]

end StaticOutputBufferer

end CppRepo
