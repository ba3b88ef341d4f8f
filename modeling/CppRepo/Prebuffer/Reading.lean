import CppRepo.Prebuffer.Prebuffer

/-!
# The get side is one cursor into the input

What the get area holds is a window of the bytes the descriptor has returned. The window ends with
the last byte that was read, and the get pointer in it stands for a position in the input, the
cursor.

## How far back the window reaches

A refill keeps the last characters before the cursor, as many as there are and at most `pbackSize`.
The area in front of the new characters is therefore as large as the input before them allows,
whatever the sizes of the reads were: a read shorter than the put-back area leaves a window that is
still long enough for the next refill, because the window includes the put-back area of this one.
-/

namespace CppRepo

open Prebuffer (Op Reply)

variable {k : Kernel} {s t : PrebufferState}

/-- Each read returns at least one byte and at most what there is room for. -/
def Kernel.Reads (k : Kernel) : Prop :=
  ∀ i, 1 ≤ k.readResult i ∧ k.readResult i ≤ bufSize - pbackSize

/-- The position in the input the get pointer stands for. -/
def PrebufferState.cursor (s : PrebufferState) : ℕ := s.desc.position + s.buf.gptr - s.buf.egptr

/-- The get area is a window of the input that ends with what was read last, with as large a
put-back area as the input before it allows. -/
structure Window (k : Kernel) (s : PrebufferState) : Prop where
  eback_le : s.buf.eback ≤ s.buf.gptr
  gptr_le : s.buf.gptr ≤ s.buf.egptr
  pback_le : pbackSize ≤ s.buf.egptr
  egptr_le : s.buf.egptr ≤ bufSize
  read_le : s.buf.egptr ≤ s.desc.position + pbackSize
  putback : s.buf.eback + min pbackSize (s.desc.position + pbackSize - s.buf.egptr) = pbackSize
  cell : ∀ i, s.buf.eback ≤ i → i < s.buf.egptr →
    s.buf.buffer i = k.incoming (s.desc.position + i - s.buf.egptr)

namespace Window

private theorem egptr_le_position (hw : Window k s) :
    s.buf.egptr ≤ s.desc.position + s.buf.eback := by
  have hread := hw.read_le
  have hpback := hw.pback_le
  have hputback := hw.putback
  omega

/-- The get pointer points to the character at the cursor. -/
theorem cell_gptr (hw : Window k s) (h : s.buf.gptr < s.buf.egptr) :
    s.buf.buffer s.buf.gptr = k.incoming s.cursor := hw.cell s.buf.gptr hw.eback_le h

theorem gbump (hw : Window k s) (h : s.buf.gptr < s.buf.egptr) :
    Window k (s.mapBuf Prebuffer.gbump) ∧ (s.mapBuf Prebuffer.gbump).cursor = s.cursor + 1 := by
  have hle := hw.egptr_le_position
  have hback := hw.eback_le
  refine ⟨⟨hback.trans (Nat.le_succ _), h, hw.pback_le, hw.egptr_le, hw.read_le, hw.putback,
    hw.cell⟩, ?_⟩
  simp only [PrebufferState.cursor, PrebufferState.mapBuf, Prebuffer.gbump]
  omega

theorem gback (hw : Window k s) (h : s.buf.eback < s.buf.gptr) :
    Window k (s.mapBuf Prebuffer.gback) ∧
      (s.mapBuf Prebuffer.gback).cursor + 1 = s.cursor := by
  have hle := hw.egptr_le_position
  have hgptr := hw.gptr_le
  refine ⟨⟨Nat.le_sub_one_of_lt h, (Nat.sub_le _ _).trans hgptr, hw.pback_le, hw.egptr_le,
    hw.read_le, hw.putback, hw.cell⟩, ?_⟩
  simp only [PrebufferState.cursor, PrebufferState.mapBuf, Prebuffer.gback]
  omega

end Window

/-- The state a refill leaves: the last characters moved to the front, the new ones behind them, and
the get area set. -/
def PrebufferState.refilled (k : Kernel) (s : PrebufferState) : PrebufferState :=
  let numPutback := min (s.buf.gptr - s.buf.eback) pbackSize
  ((s.mapBuf (·.copyCells (pbackSize - numPutback) (s.buf.gptr - numPutback) numPutback)).received k
    pbackSize).mapBuf (Prebuffer.setg (pbackSize - numPutback) pbackSize
      (pbackSize + (k.readResult s.desc.reads).toNat))

/-- A refill of a used-up window: the cursor stays, and the put-back area is as large as it can be.
-/
theorem Window.refilled (hnext : 1 ≤ k.readResult s.desc.reads ∧
      k.readResult s.desc.reads ≤ bufSize - pbackSize) (hw : Window k s)
    (h : s.buf.gptr = s.buf.egptr) :
    Window k (s.refilled k) ∧ (s.refilled k).cursor = s.cursor ∧
      (s.refilled k).buf.gptr < (s.refilled k).buf.egptr ∧
      (s.refilled k).buf.eback + min pbackSize s.cursor = (s.refilled k).buf.gptr := by
  have hread := hw.read_le
  have hpback := hw.pback_le
  have hputback := hw.putback
  have hback := hw.eback_le
  obtain ⟨hlow, hhigh⟩ := hnext
  have hnum : 1 ≤ (k.readResult s.desc.reads).toNat := by omega
  have hroom : pbackSize + (k.readResult s.desc.reads).toNat ≤ bufSize := by
    have hsize : pbackSize ≤ bufSize := by decide
    omega
  set num := (k.readResult s.desc.reads).toNat with hnumdef
  set n := min (s.buf.gptr - s.buf.eback) pbackSize with hn
  -- As many characters as there are before the cursor, up to the size of the put-back area.
  have hlen : n = min pbackSize s.desc.position := by omega
  have hcursor : s.cursor = s.desc.position := by
    rw [PrebufferState.cursor, h, Nat.add_sub_cancel]
  have hposition : (s.refilled k).desc.position = s.desc.position + num := rfl
  have heback : (s.refilled k).buf.eback = pbackSize - n := rfl
  have hgptr : (s.refilled k).buf.gptr = pbackSize := rfl
  have hegptr : (s.refilled k).buf.egptr = pbackSize + num := rfl
  refine ⟨⟨?_, ?_, ?_, ?_, ?_, ?_, fun i hi hi' ↦ ?_⟩, ?_, ?_, ?_⟩
  · rw [heback, hgptr]
    exact Nat.sub_le _ _
  · rw [hgptr, hegptr]
    exact Nat.le_add_right _ _
  · rw [hegptr]
    exact Nat.le_add_right _ _
  · rw [hegptr]
    exact hroom
  · rw [hegptr, hposition]
    omega
  · rw [heback, hegptr, hposition]
    omega
  · rw [heback] at hi
    rw [hegptr] at hi'
    have hindex : (s.refilled k).desc.position + i - (s.refilled k).buf.egptr
        = s.desc.position + i - pbackSize := by
      rw [hposition, hegptr]
      omega
    rw [hindex]
    by_cases hnew : pbackSize ≤ i
    · have hcell : (s.refilled k).buf.buffer i = k.incoming (s.desc.position + (i - pbackSize)) :=
        PrebufferState.received_of_mem hnew hi'
      rw [hcell, Nat.add_sub_assoc hnew]
    · have hcell : (s.refilled k).buf.buffer i
          = s.buf.buffer (s.buf.gptr - n + (i - (pbackSize - n))) :=
        (PrebufferState.received_of_not_mem fun hmem ↦ hnew hmem.1).trans
          (Prebuffer.copyCells_of_mem hi (by omega))
      rw [hcell, hw.cell _ (by omega) (by omega)]
      congr 1
      omega
  · rw [PrebufferState.cursor, hposition, hgptr, hegptr, hcursor]
    omega
  · rw [hgptr, hegptr]
    omega
  · rw [heback, hgptr, hcursor]
    omega

/-! ## One call

A call of the get side looks at one cell, that of the cursor, and moves it by one or not at all. If
the window is used up there is a refill first, and this does not move the cursor. -/

namespace Prebuffer

theorem ensures_underflow_of_lt {Q : Option UInt8 → PrebufferState → Prop}
    {E : Fault FileError → PrebufferState → Prop} (h : s.buf.gptr < s.buf.egptr)
    (hsize : s.buf.egptr ≤ bufSize) :
    Ensures (underflow k) s Q E ↔ Q (some (s.buf.buffer s.buf.gptr)) s := by
  rw [underflow, ensures_bind, ensures_get, if_pos h, ensures_bind,
    ensures_load (h.trans_le hsize), ensures_pure]

theorem ensures_underflow_of_eq {Q : Option UInt8 → PrebufferState → Prop}
    {E : Fault FileError → PrebufferState → Prop} (hnext : 1 ≤ k.readResult s.desc.reads)
    (h : s.buf.gptr = s.buf.egptr) (hsize : s.buf.egptr ≤ bufSize) :
    Ensures (underflow k) s Q E
      ↔ Q (some ((s.refilled k).buf.buffer pbackSize)) (s.refilled k) := by
  have hpback : pbackSize < bufSize := by decide
  have hpos : ¬ k.readResult s.desc.reads ≤ 0 := not_le.mpr (Int.lt_of_add_one_le hnext)
  rw [underflow, ensures_bind, ensures_get, if_neg h.not_lt, ensures_bind,
    ensures_memcpy ⟨by omega, by omega⟩, ensures_bind, ensures_sysRead]
  -- The copy does not change what the read returns.
  rw [if_neg (show ¬ k.readResult (s.mapBuf _).desc.reads ≤ 0 from hpos), ensures_bind,
    ensures_modify, ensures_bind, ensures_load hpback, ensures_pure]
  rfl

theorem underflow_spec (hk : k.Reads) (hw : Window k s) :
    Ensures (underflow k) s
      (fun r t ↦ r = some (k.incoming s.cursor) ∧ Window k t ∧ t.cursor = s.cursor ∧
        t.buf.gptr < t.buf.egptr ∧
        (s.buf.gptr = s.buf.egptr → t.buf.eback + min pbackSize s.cursor = t.buf.gptr))
      fun _ _ ↦ False := by
  rcases Nat.lt_or_eq_of_le hw.gptr_le with h | h
  · rw [ensures_underflow_of_lt h hw.egptr_le, hw.cell_gptr h]
    exact ⟨rfl, hw, rfl, h, fun heq ↦ absurd heq h.ne⟩
  · obtain ⟨hw', hcursor, hlt, hputback⟩ := hw.refilled (hk _) h
    have hcell : (s.refilled k).buf.buffer pbackSize = k.incoming (s.refilled k).cursor :=
      hw'.cell_gptr hlt
    rw [ensures_underflow_of_eq (hk _).1 h hw.egptr_le, hcell, hcursor]
    exact ⟨rfl, hw', rfl, hlt, fun _ ↦ hputback⟩

theorem sgetc_spec (hk : k.Reads) (hw : Window k s) :
    Ensures (sgetc k) s
      (fun r t ↦ r = some (k.incoming s.cursor) ∧ Window k t ∧ t.cursor = s.cursor)
      fun _ _ ↦ False := by
  rw [sgetc, ensures_bind, ensures_get]
  by_cases h : s.buf.gptr < s.buf.egptr
  · rw [if_pos h, ensures_bind, ensures_load (h.trans_le hw.egptr_le), ensures_pure,
      hw.cell_gptr h]
    exact ⟨rfl, hw, rfl⟩
  · rw [if_neg h]
    refine (underflow_spec hk hw).mono ?_ fun _ _ ↦ id
    rintro r t ⟨rfl, hw', hcursor, -, -⟩
    exact ⟨rfl, hw', hcursor⟩

theorem sbumpc_spec (hk : k.Reads) (hw : Window k s) :
    Ensures (sbumpc k) s
      (fun r t ↦ r = some (k.incoming s.cursor) ∧ Window k t ∧ t.cursor = s.cursor + 1)
      fun _ _ ↦ False := by
  rw [sbumpc, ensures_bind, ensures_get]
  by_cases h : s.buf.gptr < s.buf.egptr
  · rw [if_pos h, ensures_bind, ensures_load (h.trans_le hw.egptr_le), ensures_bind,
      ensures_modify, ensures_pure, hw.cell_gptr h]
    exact ⟨rfl, hw.gbump h⟩
  · rw [if_neg h, uflow, ensures_bind]
    refine (underflow_spec hk hw).mono ?_ fun _ _ ↦ id
    rintro r t ⟨rfl, hw', hcursor, hlt, -⟩
    rw [ensures_bind, ensures_get, ensures_bind, ensures_load (hlt.trans_le hw'.egptr_le),
      ensures_bind, ensures_modify, ensures_pure, hw'.cell_gptr hlt, ← hcursor]
    exact ⟨rfl, hw'.gbump hlt⟩

theorem sungetc_spec (hw : Window k s) :
    Ensures sungetc s
      (fun r t ↦ Window k t ∧
        if s.buf.eback < s.buf.gptr then
          t.cursor + 1 = s.cursor ∧ r = some (k.incoming t.cursor) ∧ t = s.mapBuf gback
        else r = none ∧ t = s)
      fun _ _ ↦ False := by
  rw [sungetc, ensures_bind, ensures_get]
  by_cases h : s.buf.eback < s.buf.gptr
  · obtain ⟨hw', hcursor⟩ := hw.gback h
    have hlt : (s.mapBuf gback).buf.gptr < (s.mapBuf gback).buf.egptr :=
      (Nat.sub_one_lt_of_lt h).trans_le hw.gptr_le
    rw [if_pos h, ensures_bind, ensures_modify, ensures_bind, ensures_get, ensures_bind,
      ensures_load (hlt.trans_le hw'.egptr_le), ensures_pure, hw'.cell_gptr hlt, if_pos h]
    exact ⟨hw', hcursor, rfl, rfl⟩
  · rw [if_neg h, ensures_pure, if_neg h]
    exact ⟨hw, rfl, rfl⟩

/-! ## The cursor

`Delivers` says what calls may return that have a cursor and nothing else. Only how far `sungetc`
may go back is left open, since that depends on the refills; after a refill it is the whole of the
put-back area. -/

/-- The call is one of the get side. -/
def Op.IsRead (op : Op) : Prop := op = .sgetc ∨ op = .sbumpc ∨ op = .sungetc

/-- Where a call that returned `r` leaves the cursor. -/
def cursorAfter (c : ℕ) : Op → Reply → ℕ
  | .sbumpc, _ => c + 1
  | .sungetc, .char (some _) => c - 1
  | _, _ => c

/-- What a call may return with the cursor at `c`: `sungetc` may fail, and otherwise gives the byte
that precedes the cursor. -/
def Returns (incoming : ℕ → UInt8) (c : ℕ) : Op → Reply → Prop
  | .sgetc, r => r = .char (some (incoming c))
  | .sbumpc, r => r = .char (some (incoming c))
  | .sungetc, r => r = .char none ∨ 0 < c ∧ r = .char (some (incoming (c - 1)))
  | _, _ => False

/-- What a sequence of calls may return with the cursor at `c` before the first. -/
def Delivers (incoming : ℕ → UInt8) : ℕ → List Op → List Reply → Prop
  | _, [], [] => True
  | c, op :: ops, r :: rs => Returns incoming c op r ∧ Delivers incoming (cursorAfter c op r) ops rs
  | _, _, _ => False

/-- Where a sequence of calls leaves the cursor. -/
def cursorAfterAll : ℕ → List Op → List Reply → ℕ
  | c, op :: ops, r :: rs => cursorAfterAll (cursorAfter c op r) ops rs
  | c, _, _ => c

/-- A call of the get side returns what it may return and moves the cursor so. -/
theorem call_spec (hk : k.Reads) (hw : Window k s) {op : Op} (hop : op.IsRead) :
    Ensures (call k op) s
      (fun r t ↦ Returns k.incoming s.cursor op r ∧ Window k t ∧
        t.cursor = cursorAfter s.cursor op r)
      fun _ _ ↦ False := by
  rcases hop with rfl | rfl | rfl
  · rw [call, ensures_map]
    refine (sgetc_spec hk hw).mono ?_ fun _ _ ↦ id
    rintro r t ⟨rfl, hw', hcursor⟩
    exact ⟨rfl, hw', hcursor⟩
  · rw [call, ensures_map]
    refine (sbumpc_spec hk hw).mono ?_ fun _ _ ↦ id
    rintro r t ⟨rfl, hw', hcursor⟩
    exact ⟨rfl, hw', hcursor⟩
  · rw [call, ensures_map]
    refine (sungetc_spec hw).mono ?_ fun _ _ ↦ id
    rintro r t ⟨hw', hcase⟩
    by_cases h : s.buf.eback < s.buf.gptr
    · rw [if_pos h] at hcase
      obtain ⟨hcursor, rfl, -⟩ := hcase
      have hpred : s.cursor - 1 = t.cursor := by omega
      refine ⟨.inr ⟨by omega, ?_⟩, hw', hpred.symm⟩
      rw [hpred]
    · rw [if_neg h] at hcase
      obtain ⟨rfl, rfl⟩ := hcase
      exact ⟨.inl rfl, hw', rfl⟩

theorem runAll_spec (hk : k.Reads) (hw : Window k s) {ops : List Op}
    (hops : ∀ op ∈ ops, op.IsRead) :
    ∃ replies, (runAll (call k) ops s).1 = replies.map .ok ∧
      Delivers k.incoming s.cursor ops replies ∧ Window k (runAll (call k) ops s).2 ∧
      (runAll (call k) ops s).2.cursor = cursorAfterAll s.cursor ops replies := by
  induction ops generalizing s with
  | nil => exact ⟨[], rfl, trivial, hw, rfl⟩
  | cons op ops ih =>
    obtain ⟨r, t, hok, hreturns, hw', hcursor⟩ :=
      (call_spec hk hw (hops op List.mem_cons_self)).exists_ok
    obtain ⟨replies, hreplies, hdelivers, hlast, hend⟩ :=
      ih hw' fun op' hop' ↦ hops op' (List.mem_cons_of_mem _ hop')
    rw [hcursor] at hdelivers hend
    rw [runAll_cons_of_ok hok]
    refine ⟨r :: replies, ?_, ⟨hreturns, hdelivers⟩, hlast, hend⟩
    rw [List.map_cons, hreplies]

private theorem runAll_sungetc (hw : Window k s) {n : ℕ} (hn : s.buf.eback + n ≤ s.buf.gptr) :
    (runAll (call k) (List.replicate n .sungetc) s).1
      = (List.range n).map fun i ↦ .ok (.char (some (k.incoming (s.cursor - 1 - i)))) := by
  induction n generalizing s with
  | zero => rfl
  | succ n ih =>
    have hlt : s.buf.eback < s.buf.gptr := by omega
    have hcall : Ensures (call k .sungetc) s
        (fun r t ↦ r = .char (some (k.incoming (s.cursor - 1))) ∧ t = s.mapBuf gback)
        fun _ _ ↦ False := by
      rw [call, ensures_map]
      refine (sungetc_spec hw).mono ?_ fun _ _ ↦ id
      rintro r t ⟨-, hcase⟩
      rw [if_pos hlt] at hcase
      obtain ⟨hcursor, rfl, ht⟩ := hcase
      rw [← hcursor, Nat.add_sub_cancel]
      exact ⟨rfl, ht⟩
    obtain ⟨hw', hcursor⟩ := hw.gback hlt
    obtain ⟨r, t, hok, rfl, rfl⟩ := hcall.exists_ok
    have hrest := ih hw' (Nat.le_sub_one_of_lt (Nat.lt_of_succ_le hn))
    rw [List.replicate_succ, runAll_cons_of_ok hok, hrest, List.range_succ_eq_map, List.map_cons,
      List.map_map]
    refine congrArg _ (List.map_congr_left fun i _ ↦ ?_)
    rw [Function.comp_apply, ← hcursor, Nat.add_sub_cancel, Nat.succ_eq_add_one, Nat.add_comm i 1,
      Nat.sub_add_eq]

/-- The constructor sets up an empty window at the start of the input. -/
theorem window_new {mode om : UInt32} {buffer : ℕ → UInt8} {fd : ℤ} {thr : Bool} {b : Prebuffer}
    (hnew : new mode buffer fd om thr = .ok b) : Window k ⟨b, {}⟩ := by
  have hsize : pbackSize ≤ bufSize := by decide
  by_cases h : thr ∧ ¬ 0 ≤ fd
  · rw [new, if_pos h] at hnew
    exact absurd hnew (by simp)
  · rw [new, if_neg h] at hnew
    obtain rfl := Except.ok.inj hnew
    refine ⟨le_rfl, le_rfl, le_rfl, hsize, ?_, rfl, fun i hi hi' ↦ absurd hi' (Nat.not_lt_of_ge hi)⟩
    exact Nat.le_add_left _ _

/-- **The get side.** Whatever the descriptor holds and however it is split into reads, the calls of
the get side of a new buffer deliver its bytes as one cursor does; and right after a refill by
`underflow` the last characters before the cursor, up to the size of the put-back area, can be put
back one after the other. -/
theorem reads_deliver {mode om : UInt32} {buffer : ℕ → UInt8} {fd : ℤ} {thr : Bool} {b : Prebuffer}
    (hk : k.Reads) (hnew : new mode buffer fd om thr = .ok b) {ops : List Op}
    (hops : ∀ op ∈ ops, op.IsRead) :
    ∃ replies, (runAll (call k) ops ⟨b, {}⟩).1 = replies.map .ok ∧
      Delivers k.incoming 0 ops replies ∧
      ((runAll (call k) ops ⟨b, {}⟩).2.buf.gptr = (runAll (call k) ops ⟨b, {}⟩).2.buf.egptr →
        ∃ t, underflow k (runAll (call k) ops ⟨b, {}⟩).2
            = .ok (some (k.incoming (cursorAfterAll 0 ops replies))) t ∧
          ∀ n ≤ min pbackSize (cursorAfterAll 0 ops replies),
            (runAll (call k) (List.replicate n .sungetc) t).1 = (List.range n).map fun i ↦
              .ok (.char (some (k.incoming (cursorAfterAll 0 ops replies - 1 - i))))) := by
  have hstart : Window k ⟨b, {}⟩ := window_new hnew
  have hzero : (⟨b, {}⟩ : PrebufferState).cursor = 0 := by
    have hle : b.gptr ≤ b.egptr := hstart.gptr_le
    rw [PrebufferState.cursor, Nat.zero_add, Nat.sub_eq_zero_of_le hle]
  obtain ⟨replies, hreplies, hdelivers, hw, hcursor⟩ := runAll_spec hk hstart hops
  rw [hzero] at hdelivers hcursor
  refine ⟨replies, hreplies, hdelivers, fun heq ↦ ?_⟩
  obtain ⟨r, t, hok, rfl, hw', hcursor', hlt, hputback⟩ := (underflow_spec hk hw).exists_ok
  rw [hcursor] at hok hcursor' hputback
  refine ⟨t, hok, fun n hn ↦ ?_⟩
  rw [runAll_sungetc hw' (by have := hputback heq; omega), hcursor']

/-- A descriptor with the bytes 0, 1, 2, … that are read one at a time. -/
private def oneByOne : Kernel := ⟨fun i ↦ UInt8.ofNat i, fun _ ↦ 1, fun _ _ ↦ -1⟩

theorem reads_deliver_oneByOne :
    ∃ b, new 0 (fun _ ↦ 0) 3 iosIn false = .ok b ∧
      ∃ replies, (runAll (call oneByOne) [.sbumpc, .sgetc, .sungetc] ⟨b, {}⟩).1 = replies.map .ok ∧
        Delivers oneByOne.incoming 0 [.sbumpc, .sgetc, .sungetc] replies := by
  have hroom : (1 : ℤ) ≤ bufSize - pbackSize := by decide
  have hk : oneByOne.Reads := fun _ ↦ ⟨le_rfl, hroom⟩
  have hops : ∀ op ∈ [Op.sbumpc, .sgetc, .sungetc], op.IsRead := by simp [Op.IsRead]
  have hnew : ∃ b, new 0 (fun _ ↦ 0) 3 iosIn false = .ok b := ⟨_, rfl⟩
  obtain ⟨b, hnew⟩ := hnew
  obtain ⟨replies, hreplies, hdelivers, -⟩ := reads_deliver hk hnew hops
  exact ⟨b, hnew, replies, hreplies, hdelivers⟩

end Prebuffer

end CppRepo
