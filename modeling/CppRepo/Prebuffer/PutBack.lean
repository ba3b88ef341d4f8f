import CppRepo.Prebuffer.Reading

/-!
# The put-back area

`underflow` moves the last characters before the get pointer to the put-back area before it knows
whether there is anything to read, and with `memcpy`. Both have consequences.

If the read returns nothing, the get area stays what it was, and the characters that were moved now
stand where older ones did. `sungetc` gives what it gave before exactly if the older characters were
the same (`Repeats`).

The characters that are moved end at the get pointer, and the put-back area ends where the last read
began. So the two overlap when the last read was short and there were characters before it, which is
what `memcpy` does not allow.

A read may fail here, or find the end of the input, so `Kernel.Reads` is assumed only where the
sizes of the reads matter.
-/

namespace CppRepo

open Prebuffer (Op Reply)

variable {k : Kernel} {s t : PrebufferState}

/-- Each read returns at most what there is room for. It may fail, or find the end of the input. -/
def Kernel.ReadsBounded (k : Kernel) : Prop := ∀ i, k.readResult i ≤ bufSize - pbackSize

namespace PrebufferState

/-- How many characters `underflow` moves. -/
def numPutback (s : PrebufferState) : ℕ := min (s.buf.gptr - s.buf.eback) pbackSize

/-- The state `underflow` leaves if the read returns nothing. -/
def refused (k : Kernel) (s : PrebufferState) : PrebufferState :=
  (s.mapBuf (·.copyCells (pbackSize - s.numPutback) (s.buf.gptr - s.numPutback)
    s.numPutback)).received k pbackSize

/-- The put-back area holds the characters that precede the get pointer. -/
def Repeats (s : PrebufferState) : Prop :=
  ∀ i, s.buf.eback ≤ i → i < pbackSize →
    s.buf.buffer i = s.buf.buffer (s.buf.gptr + i - pbackSize)

instance (s : PrebufferState) : Decidable s.Repeats :=
  inferInstanceAs (Decidable (∀ i, s.buf.eback ≤ i → i < pbackSize → _))

/-- The cells that `underflow` moves. -/
def moveSource (s : PrebufferState) : Finset ℕ :=
  Finset.Ico (s.buf.gptr - s.numPutback) s.buf.gptr

/-- The cells that `underflow` moves them to. -/
def moveTarget (s : PrebufferState) : Finset ℕ := Finset.Ico (pbackSize - s.numPutback) pbackSize

end PrebufferState

/-! ## What a call does

The three members of the get side, with what each does in each of the cases: there is a character,
the window is refilled, or the read returns nothing. No assumption on the sizes of the reads is made
here. -/

/-- Where the pointers of the get area can be. -/
structure GetArea (s : PrebufferState) : Prop where
  eback_le : s.buf.eback ≤ s.buf.gptr
  gptr_le : s.buf.gptr ≤ s.buf.egptr
  pback_le : pbackSize ≤ s.buf.egptr
  egptr_le : s.buf.egptr ≤ bufSize

private theorem Window.getArea (hw : Window k s) : GetArea s :=
  ⟨hw.eback_le, hw.gptr_le, hw.pback_le, hw.egptr_le⟩

/-- What a call of the get side may do, and what it returns. -/
inductive GetMove (k : Kernel) (s : PrebufferState) : Op → Reply → PrebufferState → Prop
  | look (h : s.buf.gptr < s.buf.egptr) :
      GetMove k s .sgetc (.char (some (s.buf.buffer s.buf.gptr))) s
  | bump (h : s.buf.gptr < s.buf.egptr) :
      GetMove k s .sbumpc (.char (some (s.buf.buffer s.buf.gptr))) (s.mapBuf Prebuffer.gbump)
  | refill (h : s.buf.gptr = s.buf.egptr) (hread : 1 ≤ k.readResult s.desc.reads) :
      GetMove k s .sgetc (.char (some ((s.refilled k).buf.buffer pbackSize))) (s.refilled k)
  | refillBump (h : s.buf.gptr = s.buf.egptr) (hread : 1 ≤ k.readResult s.desc.reads) :
      GetMove k s .sbumpc (.char (some ((s.refilled k).buf.buffer pbackSize)))
        ((s.refilled k).mapBuf Prebuffer.gbump)
  | refuse (op : Op) (hop : op = .sgetc ∨ op = .sbumpc) (h : s.buf.gptr = s.buf.egptr)
      (hread : k.readResult s.desc.reads ≤ 0) : GetMove k s op (.char none) (s.refused k)
  | back (h : s.buf.eback < s.buf.gptr) :
      GetMove k s .sungetc (.char (some (s.buf.buffer (s.buf.gptr - 1))))
        (s.mapBuf Prebuffer.gback)
  | stay (h : ¬ s.buf.eback < s.buf.gptr) : GetMove k s .sungetc (.char none) s

namespace Prebuffer

variable {Q : Option UInt8 → PrebufferState → Prop} {E : Fault FileError → PrebufferState → Prop}

private theorem ensures_underflow_of_refused (hread : k.readResult s.desc.reads ≤ 0)
    (h : s.buf.gptr = s.buf.egptr) (hsize : s.buf.egptr ≤ bufSize) :
    Ensures (underflow k) s Q E ↔ Q none (s.refused k) := by
  have hpback : pbackSize ≤ bufSize := by decide
  rw [underflow, ensures_bind, ensures_get, if_neg h.not_lt, ensures_bind,
    ensures_memcpy ⟨by omega, by omega⟩, ensures_bind, ensures_sysRead]
  rw [if_pos (show k.readResult (s.mapBuf _).desc.reads ≤ 0 from hread), ensures_pure]
  rfl

private theorem ensures_sgetc_of_eq (h : s.buf.gptr = s.buf.egptr) :
    Ensures (sgetc k) s Q E ↔ Ensures (underflow k) s Q E := by
  rw [sgetc, ensures_bind, ensures_get, if_neg h.not_lt]

private theorem gptr_lt_of_refilled (hread : 1 ≤ k.readResult s.desc.reads) :
    (s.refilled k).buf.gptr < (s.refilled k).buf.egptr := by
  have hgptr : (s.refilled k).buf.gptr = pbackSize := rfl
  have hegptr : (s.refilled k).buf.egptr = pbackSize + (k.readResult s.desc.reads).toNat := rfl
  omega

theorem sgetc_move (ha : GetArea s) :
    Ensures (sgetc k) s (fun r t ↦ GetMove k s .sgetc (.char r) t) fun _ _ ↦ False := by
  rcases ha.gptr_le.lt_or_eq with h | h
  · rw [sgetc, ensures_bind, ensures_get, if_pos h, ensures_bind,
      ensures_load (h.trans_le ha.egptr_le), ensures_pure]
    exact .look h
  · rw [ensures_sgetc_of_eq h]
    by_cases hread : k.readResult s.desc.reads ≤ 0
    · rw [ensures_underflow_of_refused hread h ha.egptr_le]
      exact .refuse _ (.inl rfl) h hread
    · have hread : 1 ≤ k.readResult s.desc.reads := Int.add_one_le_of_lt (not_le.mp hread)
      rw [ensures_underflow_of_eq hread h ha.egptr_le]
      exact .refill h hread

theorem sbumpc_move (ha : GetArea s) :
    Ensures (sbumpc k) s (fun r t ↦ GetMove k s .sbumpc (.char r) t) fun _ _ ↦ False := by
  rcases ha.gptr_le.lt_or_eq with h | h
  · rw [sbumpc, ensures_bind, ensures_get, if_pos h, ensures_bind,
      ensures_load (h.trans_le ha.egptr_le), ensures_bind, ensures_modify, ensures_pure]
    exact .bump h
  · rw [sbumpc, ensures_bind, ensures_get, if_neg h.not_lt, uflow, ensures_bind]
    by_cases hread : k.readResult s.desc.reads ≤ 0
    · rw [ensures_underflow_of_refused hread h ha.egptr_le]
      exact .refuse _ (.inr rfl) h hread
    · have hread : 1 ≤ k.readResult s.desc.reads := Int.add_one_le_of_lt (not_le.mp hread)
      have hfirst : (s.refilled k).buf.gptr < bufSize := by
        have hgptr : (s.refilled k).buf.gptr = pbackSize := rfl
        rw [hgptr]
        decide
      rw [ensures_underflow_of_eq hread h ha.egptr_le]
      rw [ensures_bind, ensures_get, ensures_bind, ensures_load hfirst, ensures_bind,
        ensures_modify, ensures_pure]
      exact .refillBump h hread

theorem sungetc_move (ha : GetArea s) :
    Ensures sungetc s (fun r t ↦ GetMove k s .sungetc (.char r) t) fun _ _ ↦ False := by
  rw [sungetc, ensures_bind, ensures_get]
  by_cases h : s.buf.eback < s.buf.gptr
  · have hsize : (s.mapBuf gback).buf.gptr < bufSize :=
      (Nat.sub_one_lt_of_lt h).trans_le (ha.gptr_le.trans ha.egptr_le)
    rw [if_pos h, ensures_bind, ensures_modify, ensures_bind, ensures_get, ensures_bind,
      ensures_load hsize, ensures_pure]
    exact .back h
  · rw [if_neg h, ensures_pure]
    exact .stay h

/-- **What a call does.** -/
theorem call_move (ha : GetArea s) {op : Op} (hop : op.IsRead) :
    Ensures (call k op) s (fun r t ↦ GetMove k s op r t) fun _ _ ↦ False := by
  rcases hop with rfl | rfl | rfl <;> rw [call, ensures_map]
  · exact sgetc_move ha
  · exact sbumpc_move ha
  · exact sungetc_move ha

end Prebuffer

/-! ## A read that returns nothing

The pointers stay, and the copy overwrites all of the get area that is in the put-back area. So the
get area holds what it held exactly if these characters are the same as those in front of the get
pointer; the cells behind the put-back area are not touched. -/

namespace PrebufferState

private theorem position_refused (hread : k.readResult s.desc.reads ≤ 0) :
    (s.refused k).desc.position = s.desc.position := by
  have hposition : (s.refused k).desc.position
      = s.desc.position + (k.readResult s.desc.reads).toNat := rfl
  rw [hposition, Int.toNat_of_nonpos hread, Nat.add_zero]

private theorem buffer_refused (hread : k.readResult s.desc.reads ≤ 0) (i : ℕ) :
    (s.refused k).buf.buffer i
      = (s.buf.copyCells (pbackSize - s.numPutback) (s.buf.gptr - s.numPutback)
          s.numPutback).buffer i := by
  refine received_of_not_mem fun hmem ↦ ?_
  have hnone : (k.readResult s.desc.reads).toNat = 0 := Int.toNat_of_nonpos hread
  have hlt : i < pbackSize + (k.readResult s.desc.reads).toNat := hmem.2
  rw [hnone] at hlt
  exact absurd hmem.1 (Nat.not_le_of_lt hlt)

private theorem numPutback_ge (ha : GetArea s) (h : s.buf.gptr = s.buf.egptr) :
    pbackSize ≤ s.buf.eback + s.numPutback := by
  have hpback := ha.pback_le
  have hback := ha.eback_le
  rw [numPutback]
  omega

private theorem buffer_refused_of_lt (ha : GetArea s) (h : s.buf.gptr = s.buf.egptr)
    (hread : k.readResult s.desc.reads ≤ 0) {i : ℕ} (hi : s.buf.eback ≤ i) (hlt : i < pbackSize) :
    (s.refused k).buf.buffer i = s.buf.buffer (s.buf.gptr + i - pbackSize) := by
  have hnum := numPutback_ge ha h
  have hle : s.numPutback ≤ s.buf.gptr := (min_le_left _ _).trans (Nat.sub_le _ _)
  have hmax : s.numPutback ≤ pbackSize := min_le_right _ _
  rw [buffer_refused hread, Prebuffer.copyCells_of_mem (by omega) (by omega)]
  congr 1
  omega

private theorem buffer_refused_of_ge (hread : k.readResult s.desc.reads ≤ 0) {i : ℕ}
    (hi : pbackSize ≤ i) : (s.refused k).buf.buffer i = s.buf.buffer i := by
  have hmax : s.numPutback ≤ pbackSize := min_le_right _ _
  rw [buffer_refused hread]
  exact Prebuffer.copyCells_of_not_mem fun hmem ↦ by omega

private theorem buffer_refused_iff (ha : GetArea s) (h : s.buf.gptr = s.buf.egptr)
    (hread : k.readResult s.desc.reads ≤ 0) :
    (∀ i, s.buf.eback ≤ i → i < s.buf.gptr → (s.refused k).buf.buffer i = s.buf.buffer i)
      ↔ s.Repeats := by
  have hpback := ha.pback_le
  constructor
  · intro hall i hi hlt
    rw [← hall i hi (by omega), buffer_refused_of_lt ha h hread hi hlt]
  · intro hrepeats i hi _
    by_cases hlt : i < pbackSize
    · rw [buffer_refused_of_lt ha h hread hi hlt, hrepeats i hi hlt]
    · exact buffer_refused_of_ge hread (Nat.le_of_not_lt hlt)

end PrebufferState

/-- The get area is still a window of the input, and the cursor stays. -/
theorem Window.refused (hw : Window k s) (h : s.buf.gptr = s.buf.egptr)
    (hread : k.readResult s.desc.reads ≤ 0) (hrepeats : s.Repeats) : Window k (s.refused k) := by
  have hposition := PrebufferState.position_refused hread
  refine ⟨hw.eback_le, hw.gptr_le, hw.pback_le, hw.egptr_le, ?_, ?_, fun i hi hi' ↦ ?_⟩
  · rw [hposition]
    exact hw.read_le
  · rw [hposition]
    exact hw.putback
  · have hcell := (PrebufferState.buffer_refused_iff hw.getArea h hread).mpr hrepeats i hi
      (hi'.trans_eq h.symm)
    rw [hposition, hcell]
    exact hw.cell i hi hi'

namespace Prebuffer

/-! ## Putting back

`sungetc` stops at `eback`. So two states with the same pointers give the same characters as long as
the cells between are the same. -/

private theorem runAll_sungetc_eq (ha : GetArea s) (n : ℕ) :
    (runAll (call k) (List.replicate n .sungetc) s).1
      = (List.range n).map fun i ↦ .ok (.char
          (if s.buf.eback + i < s.buf.gptr then some (s.buf.buffer (s.buf.gptr - 1 - i))
            else none)) := by
  induction n generalizing s with
  | zero => rfl
  | succ n ih =>
    obtain ⟨r, t, hok, hmove⟩ := (call_move (k := k) ha (.inr (.inr rfl))).exists_ok
    rw [List.replicate_succ, runAll_cons_of_ok hok, List.range_succ_eq_map, List.map_cons,
      List.map_map]
    rcases hmove with - | - | - | - | ⟨_, hop, -, -⟩ | h | h
    case refuse => exact absurd hop (by simp)
    case back =>
      have ha' : GetArea (s.mapBuf gback) :=
        ⟨Nat.le_sub_one_of_lt h, (Nat.sub_le _ _).trans ha.gptr_le, ha.pback_le, ha.egptr_le⟩
      rw [ih ha', if_pos (by omega)]
      refine congrArg _ (List.map_congr_left fun i _ ↦ ?_)
      have hgptr : (s.mapBuf gback).buf.gptr = s.buf.gptr - 1 := rfl
      have heback : (s.mapBuf gback).buf.eback = s.buf.eback := rfl
      have hbuffer : (s.mapBuf gback).buf.buffer = s.buf.buffer := rfl
      rw [Function.comp_apply, hgptr, heback, hbuffer]
      have hindex : s.buf.gptr - 1 - 1 - i = s.buf.gptr - 1 - i.succ := by omega
      have hlt : s.buf.eback + i < s.buf.gptr - 1 ↔ s.buf.eback + i.succ < s.buf.gptr := by omega
      simp only [hindex, hlt]
    case stay =>
      rw [ih ha, if_neg (by omega)]
      refine congrArg _ (List.map_congr_left fun i _ ↦ ?_)
      rw [Function.comp_apply, if_neg (by omega), if_neg (by omega)]

private theorem runAll_sungetc_eq_iff (ha : GetArea s) (ha' : GetArea t)
    (heback : t.buf.eback = s.buf.eback) (hgptr : t.buf.gptr = s.buf.gptr) :
    (∀ n, (runAll (call k) (List.replicate n .sungetc) t).1
        = (runAll (call k) (List.replicate n .sungetc) s).1)
      ↔ ∀ i, s.buf.eback ≤ i → i < s.buf.gptr → t.buf.buffer i = s.buf.buffer i := by
  constructor
  · intro hall i hi hlt
    have hn := hall (s.buf.gptr - i)
    rw [runAll_sungetc_eq ha, runAll_sungetc_eq ha', heback, hgptr, List.map_inj_left] at hn
    have hlast := hn (s.buf.gptr - 1 - i) (List.mem_range.mpr (by omega))
    rw [if_pos (by omega), if_pos (by omega), Except.ok.injEq, Reply.char.injEq,
      Option.some.injEq] at hlast
    have hindex : s.buf.gptr - 1 - (s.buf.gptr - 1 - i) = i := by omega
    rwa [hindex] at hlast
  · intro hall n
    rw [runAll_sungetc_eq ha, runAll_sungetc_eq ha', heback, hgptr]
    refine List.map_congr_left fun i _ ↦ ?_
    by_cases hi : s.buf.eback + i < s.buf.gptr
    · rw [if_pos hi, if_pos hi, hall _ (by omega) (by omega)]
    · rw [if_neg hi, if_neg hi]

/-! ## Runs in which reads fail

With the condition on each failing read, the get area stays a window of the input, so what was shown
of reads that return something is still true. -/

/-- If the call refills the get area with a read that returns nothing, the put-back area holds the
characters that precede the get pointer. -/
def Op.Repeats (k : Kernel) (op : Op) (s : PrebufferState) : Prop :=
  op = .sgetc ∨ op = .sbumpc → s.buf.gptr = s.buf.egptr → k.readResult s.desc.reads ≤ 0 → s.Repeats

/-- So for each call of the run. -/
def RunRepeats (k : Kernel) : List Op → PrebufferState → Prop
  | [], _ => True
  | op :: ops, s => op.Repeats k s ∧ RunRepeats k ops (after (call k op) s)

instance (op : Op) (s : PrebufferState) : Decidable (op.Repeats k s) :=
  inferInstanceAs (Decidable (_ ∨ _ → _ = _ → _ ≤ _ → _))

instance decidableRunRepeats : (ops : List Op) → (s : PrebufferState) →
    Decidable (RunRepeats k ops s)
  | [], _ => inferInstanceAs (Decidable True)
  | op :: ops, s =>
    have := decidableRunRepeats ops (after (call k op) s)
    inferInstanceAs (Decidable (_ ∧ _))

/-- If the get area is used up and the next read returns something, `underflow` leaves the last
characters that were read in the put-back area, as many as fit. -/
def PutsBackLast (k : Kernel) (s : PrebufferState) : Prop :=
  s.buf.gptr = s.buf.egptr → 1 ≤ k.readResult s.desc.reads →
    ∃ c t, underflow k s = .ok (some c) t ∧
      t.buf.eback + min pbackSize s.desc.position = pbackSize ∧
      ∀ i, t.buf.eback ≤ i → i < pbackSize →
        t.buf.buffer i = k.incoming (s.desc.position + i - pbackSize)

/-- `underflow` returns `EOF` and leaves the history: `sungetc` gives what it gave before, and the
later refills leave the right characters in the put-back area. -/
def KeepsHistory (k : Kernel) (s : PrebufferState) : Prop :=
  ∃ t, underflow k s = .ok none t ∧
    (∀ n, (runAll (call k) (List.replicate n .sungetc) t).1
      = (runAll (call k) (List.replicate n .sungetc) s).1) ∧
    ∀ later : List Op, (∀ op ∈ later, op.IsRead) → RunRepeats k later t →
      PutsBackLast k (runAll (call k) later t).2

end Prebuffer

/-- **One step.** A call leaves a window of the input. -/
theorem GetMove.window (hk : k.ReadsBounded) (hw : Window k s) {op : Op} {r : Reply}
    (hmove : GetMove k s op r t) (hop : op.Repeats k s) : Window k t := by
  rcases hmove with h | h | ⟨h, hread⟩ | ⟨h, hread⟩ | ⟨_, hcall, h, hread⟩ | h | h
  case look => exact hw
  case bump => exact (hw.gbump h).1
  case refill => exact (hw.refilled ⟨hread, hk _⟩ h).1
  case refillBump =>
    exact ((hw.refilled ⟨hread, hk _⟩ h).1.gbump (Prebuffer.gptr_lt_of_refilled hread)).1
  case refuse => exact hw.refused h hread (hop hcall h hread)
  case back => exact (hw.gback h).1
  case stay => exact hw

namespace Prebuffer

/-- **A run.** -/
theorem runAll_window (hk : k.ReadsBounded) (hw : Window k s) {ops : List Op}
    (hops : ∀ op ∈ ops, op.IsRead) (hrun : RunRepeats k ops s) :
    Window k (runAll (call k) ops s).2 := by
  induction ops generalizing s with
  | nil => exact hw
  | cons op ops ih =>
    obtain ⟨hop, hrest⟩ := hrun
    obtain ⟨r, t, hok, hmove⟩ :=
      (call_move (k := k) hw.getArea (hops op List.mem_cons_self)).exists_ok
    rw [after_of_ok hok] at hrest
    rw [runAll_cons_of_ok hok]
    exact ih (hmove.window hk hw hop) (fun op' hop' ↦ hops op' (List.mem_cons_of_mem _ hop')) hrest

private theorem putsBackLast_of_window (hk : k.ReadsBounded) (hw : Window k s) :
    PutsBackLast k s := by
  intro h hread
  obtain ⟨hw', hcursor, -, hputback⟩ := hw.refilled ⟨hread, hk _⟩ h
  have hposition : s.cursor = s.desc.position := by
    rw [PrebufferState.cursor, h, Nat.add_sub_cancel]
  have hunderflow : Ensures (underflow k) s
      (fun r t ↦ r = some ((s.refilled k).buf.buffer pbackSize) ∧ t = s.refilled k)
      fun _ _ ↦ False := by
    rw [ensures_underflow_of_eq hread h hw.egptr_le]
    exact ⟨rfl, rfl⟩
  obtain ⟨r, t, hok, rfl, rfl⟩ := hunderflow.exists_ok
  rw [hposition] at hputback
  refine ⟨_, _, hok, hputback, fun i hi hlt ↦ ?_⟩
  have hegptr : (s.refilled k).buf.egptr = pbackSize + (k.readResult s.desc.reads).toNat := rfl
  have hdesc : (s.refilled k).desc.position
      = s.desc.position + (k.readResult s.desc.reads).toNat := rfl
  rw [hw'.cell i hi (by omega), hdesc, hegptr]
  congr 1
  omega

/-- **A read that returns nothing.** In a run whose refills with such reads found the characters
that precede the get pointer in the put-back area already, one more of them leaves the history
exactly if it does, too. -/
theorem keepsHistory_iff {mode om : UInt32} {buffer : ℕ → UInt8} {fd : ℤ} {thr : Bool}
    {b : Prebuffer} (hk : k.ReadsBounded) (hnew : new mode buffer fd om thr = .ok b)
    {ops : List Op} (hops : ∀ op ∈ ops, op.IsRead) (hrun : RunRepeats k ops ⟨b, {}⟩)
    (hs : (runAll (call k) ops ⟨b, {}⟩).2 = s) (hused : s.buf.gptr = s.buf.egptr)
    (hread : k.readResult s.desc.reads ≤ 0) : KeepsHistory k s ↔ s.Repeats := by
  have hw : Window k s := hs ▸ runAll_window hk (window_new hnew) hops hrun
  have ha : GetArea s := hw.getArea
  have ha' : GetArea (s.refused k) := ⟨ha.eback_le, ha.gptr_le, ha.pback_le, ha.egptr_le⟩
  have hunderflow : Ensures (underflow k) s (fun r t ↦ r = none ∧ t = s.refused k)
      fun _ _ ↦ False := by
    rw [ensures_underflow_of_refused hread hused ha.egptr_le]
    exact ⟨rfl, rfl⟩
  obtain ⟨r, t, hok, rfl, rfl⟩ := hunderflow.exists_ok
  have hsungetc := (runAll_sungetc_eq_iff (k := k) ha ha' rfl rfl).trans
    (PrebufferState.buffer_refused_iff ha hused hread)
  constructor
  · rintro ⟨t, hok', hall, -⟩
    rw [hok] at hok'
    obtain rfl : s.refused k = t := (EStateM.Result.ok.inj hok').2
    exact hsungetc.mp hall
  · intro hrepeats
    refine ⟨_, hok, hsungetc.mpr hrepeats, fun later hlater hlaterRun ↦ ?_⟩
    exact putsBackLast_of_window hk
      (runAll_window hk (hw.refused hused hread hrepeats) hlater hlaterRun)

/-- Two reads of four bytes each, and nothing more: the bytes are `abcdefgh`. -/
private def twoBlocks : Kernel :=
  ⟨fun i ↦ 97 + UInt8.ofNat i, fun i ↦ if i < 2 then 4 else 0, fun _ _ ↦ -1⟩

/-- A new buffer for input. -/
private def inBuffer : Prebuffer :=
  ⟨iosIn, 3, fun _ ↦ 0, pbackSize, pbackSize, pbackSize, pbase⟩

theorem keepsHistory_iff_twoBlocks :
    KeepsHistory twoBlocks (runAll (call twoBlocks) (List.replicate 8 .sbumpc) ⟨inBuffer, {}⟩).2
      ↔ (runAll (call twoBlocks) (List.replicate 8 .sbumpc) ⟨inBuffer, {}⟩).2.Repeats := by
  have hk : twoBlocks.ReadsBounded := by
    intro i
    have hroom : (4 : ℤ) ≤ bufSize - pbackSize ∧ (0 : ℤ) ≤ bufSize - pbackSize := by decide
    have hresult : twoBlocks.readResult i = if i < 2 then 4 else 0 := rfl
    rw [hresult]
    split_ifs
    · exact hroom.1
    · exact hroom.2
  have hnew : new 0 (fun _ ↦ 0) 3 iosIn false = .ok inBuffer := rfl
  have hops : ∀ op ∈ List.replicate 8 Op.sbumpc, op.IsRead := fun op hop ↦
    .inr (.inl (List.eq_of_mem_replicate hop))
  have hrun : RunRepeats twoBlocks (List.replicate 8 .sbumpc) ⟨inBuffer, {}⟩ := by
    decide +kernel
  exact keepsHistory_iff hk hnew hops hrun rfl (by decide +kernel) (by decide +kernel)

/-- All eight characters are read and the next read finds the end of the input. Before it `sungetc`
gives them back one after the other, and after it the first four are those of the second read. -/
theorem refused_rewrites_history :
    ∃ b, new 0 (fun _ ↦ 0) 3 iosIn false = .ok b ∧
      ∃ s, (runAll (call twoBlocks) (List.replicate 8 .sbumpc) ⟨b, {}⟩).2 = s ∧
        (runAll (call twoBlocks) (List.replicate 8 .sungetc) s).1
          = (ascii "hgfedcba").map (fun c ↦ .ok (.char (some c))) ∧
        ∃ t, underflow twoBlocks s = .ok none t ∧
          (runAll (call twoBlocks) (List.replicate 8 .sungetc) t).1
            = (ascii "hgfehgfe").map (fun c ↦ .ok (.char (some c))) := by
  refine ⟨inBuffer, rfl, _, rfl, ?_, _, rfl, ?_⟩
  · decide +kernel
  · decide +kernel

end Prebuffer

/-! ## Overlap

The characters that are moved are the last ones of the get area, and their source ends with it.
Where the last read was not shorter than the put-back area, the source begins behind the put-back
area; or else it reaches into it, unless there is nothing in front of what was read. -/

/-- The get area ends with what the last read returned, which is all of the input or not. -/
structure EndsWithLast (k : Kernel) (s : PrebufferState) : Prop where
  none : s.desc.reads = 0 → s.desc.position = 0 ∧ s.buf.egptr = pbackSize
  last : 0 < s.desc.reads → (s.buf.egptr : ℤ) = pbackSize + k.readResult (s.desc.reads - 1)
  first : s.desc.reads = 1 → s.buf.egptr = s.desc.position + pbackSize
  later : 1 < s.desc.reads → s.buf.egptr < s.desc.position + pbackSize

theorem EndsWithLast.refilled (hk : k.Reads) (hl : EndsWithLast k s) (hw : Window k s) :
    EndsWithLast k (s.refilled k) := by
  have hread := hw.read_le
  have hpback := hw.pback_le
  have hlow := (hk s.desc.reads).1
  have hegptr : (s.refilled k).buf.egptr = pbackSize + (k.readResult s.desc.reads).toNat := rfl
  have hposition : (s.refilled k).desc.position
      = s.desc.position + (k.readResult s.desc.reads).toNat := rfl
  have hreads : (s.refilled k).desc.reads = s.desc.reads + 1 := rfl
  refine ⟨fun h ↦ ?_, fun _ ↦ ?_, fun h ↦ ?_, fun h ↦ ?_⟩
  · exact absurd (hreads ▸ h) (Nat.succ_ne_zero _)
  · rw [hegptr, hreads, Nat.add_sub_cancel, Nat.cast_add, Int.toNat_of_nonneg (by omega)]
  · have hnone := hl.none (by omega)
    omega
  · -- There is something before this read, from the reads before it.
    have hpositive : 0 < s.desc.position := by
      by_cases hone : s.desc.reads = 1
      · have hfirst := hl.first hone
        have hlast := hl.last (by omega)
        rw [hone, Nat.sub_self] at hlast
        have := (hk 0).1
        omega
      · have := hl.later (by omega)
        omega
    omega

/-- **One step.** -/
theorem GetMove.endsWithLast (hk : k.Reads) (hw : Window k s) (hl : EndsWithLast k s) {op : Op}
    {r : Reply} (hmove : GetMove k s op r t) : EndsWithLast k t := by
  rcases hmove with h | h | ⟨h, hread⟩ | ⟨h, hread⟩ | ⟨_, hcall, h, hread⟩ | h | h
  case refill => exact hl.refilled hk hw
  case refillBump =>
    obtain ⟨hnone, hlast, hfirst, hlater⟩ := hl.refilled hk hw
    exact ⟨hnone, hlast, hfirst, hlater⟩
  case refuse => exact absurd (hk s.desc.reads).1 (by omega)
  case look => exact hl
  case bump => exact ⟨hl.none, hl.last, hl.first, hl.later⟩
  case back => exact ⟨hl.none, hl.last, hl.first, hl.later⟩
  case stay => exact hl

namespace PrebufferState

private theorem disjoint_move_iff (h : pbackSize ≤ s.buf.gptr) :
    Disjoint s.moveSource s.moveTarget
      ↔ s.numPutback = 0 ∨ pbackSize + s.numPutback ≤ s.buf.gptr := by
  have hmax : s.numPutback ≤ pbackSize := min_le_right _ _
  rw [moveSource, moveTarget, Finset.disjoint_left]
  constructor
  · intro hdisjoint
    by_contra hno
    refine hdisjoint (a := s.buf.gptr - s.numPutback) ?_ ?_ <;> rw [Finset.mem_Ico] <;> omega
  · intro hcase i hi hi'
    rw [Finset.mem_Ico] at hi hi'
    omega

private theorem move_subset (ha : GetArea s) :
    s.moveSource ⊆ Finset.range bufSize ∧ s.moveTarget ⊆ Finset.range bufSize := by
  have hsize : pbackSize ≤ bufSize := by decide
  have hgptr := ha.gptr_le
  have hegptr := ha.egptr_le
  refine ⟨fun i hi ↦ ?_, fun i hi ↦ ?_⟩
  · have hlt := (Finset.mem_Ico.mp hi).2
    exact Finset.mem_range.mpr (by omega)
  · have hlt := (Finset.mem_Ico.mp hi).2
    exact Finset.mem_range.mpr (by omega)

end PrebufferState

namespace Prebuffer

/-- The states in which the calls of a run find the get area used up and call `underflow`. -/
def refillStates (k : Kernel) : List Op → PrebufferState → List PrebufferState
  | [], _ => []
  | op :: ops, s =>
    let rest := refillStates k ops (after (call k op) s)
    if (op = .sgetc ∨ op = .sbumpc) ∧ ¬ s.buf.gptr < s.buf.egptr then s :: rest else rest

/-- **A run.** -/
theorem window_of_mem_refillStates (hk : k.Reads) (hw : Window k s) (hl : EndsWithLast k s)
    {ops : List Op} (hops : ∀ op ∈ ops, op.IsRead) (ht : t ∈ refillStates k ops s) :
    Window k t ∧ EndsWithLast k t ∧ t.buf.gptr = t.buf.egptr := by
  induction ops generalizing s with
  | nil => exact absurd ht List.not_mem_nil
  | cons op ops ih =>
    obtain ⟨r, u, hok, hmove⟩ :=
      (call_move (k := k) hw.getArea (hops op List.mem_cons_self)).exists_ok
    have hw' : Window k u := hmove.window (fun i ↦ (hk i).2) hw fun _ _ hnone ↦ by
      have := (hk s.desc.reads).1
      omega
    have hrest := ih hw' (hmove.endsWithLast hk hw hl) fun op' hop' ↦
      hops op' (List.mem_cons_of_mem _ hop')
    rw [refillStates, after_of_ok hok] at ht
    split_ifs at ht with hcall
    · rcases List.mem_cons.mp ht with rfl | ht
      · exact ⟨hw, hl, le_antisymm hw.gptr_le (Nat.le_of_not_lt hcall.2)⟩
      · exact hrest ht
    · exact hrest ht

private theorem endsWithLast_new {mode om : UInt32} {buffer : ℕ → UInt8} {fd : ℤ} {thr : Bool}
    {b : Prebuffer} (hnew : new mode buffer fd om thr = .ok b) : EndsWithLast k ⟨b, {}⟩ := by
  by_cases h : thr ∧ ¬ 0 ≤ fd
  · rw [new, if_pos h] at hnew
    exact absurd hnew (by simp)
  · rw [new, if_neg h] at hnew
    obtain rfl := Except.ok.inj hnew
    exact ⟨fun _ ↦ ⟨rfl, rfl⟩, fun h ↦ absurd h (lt_irrefl 0), fun h ↦ absurd h Nat.zero_ne_one,
      fun h ↦ absurd h (Nat.not_lt_zero 1)⟩

/-- **The ranges of the copy.** Whenever `underflow` moves characters to the put-back area, the
cells are cells of the array, and the two ranges are disjoint exactly if the last read was the only
one so far, or was not shorter than the put-back area. -/
theorem move_disjoint_iff {mode om : UInt32} {buffer : ℕ → UInt8} {fd : ℤ} {thr : Bool}
    {b : Prebuffer} (hk : k.Reads) (hnew : new mode buffer fd om thr = .ok b) {ops : List Op}
    (hops : ∀ op ∈ ops, op.IsRead) (hs : s ∈ refillStates k ops ⟨b, {}⟩) :
    (Disjoint s.moveSource s.moveTarget ∧ s.moveSource ⊆ Finset.range bufSize ∧
        s.moveTarget ⊆ Finset.range bufSize)
      ↔ s.desc.reads ≤ 1 ∨ pbackSize ≤ k.readResult (s.desc.reads - 1) := by
  obtain ⟨hw, hl, hused⟩ :=
    window_of_mem_refillStates hk (window_new hnew) (endsWithLast_new hnew) hops hs
  have hpback := hw.pback_le
  have hputback := hw.putback
  have hnum : s.numPutback = min (s.buf.gptr - s.buf.eback) pbackSize := rfl
  rw [and_iff_left (PrebufferState.move_subset hw.getArea),
    PrebufferState.disjoint_move_iff (by omega)]
  rcases Nat.lt_trichotomy s.desc.reads 1 with hreads | hreads | hreads
  · have hnone := hl.none (by omega)
    exact iff_of_true (.inl (by omega)) (.inl hreads.le)
  · have hfirst := hl.first hreads
    exact iff_of_true (.inr (by omega)) (.inl hreads.le)
  · have hsize : pbackSize = 4 := rfl
    have hlast := hl.last (by omega)
    have hlater := hl.later hreads
    have hlow := (hk (s.desc.reads - 1)).1
    rw [or_iff_right (Nat.not_le_of_lt hreads), or_iff_right (by omega)]
    omega

/-- Each read returns two bytes. -/
private def twoByTwo : Kernel := ⟨fun _ ↦ 0, fun _ ↦ 2, fun _ _ ↦ -1⟩

private theorem twoByTwo_reads : twoByTwo.Reads := fun _ ↦ by
  have hroom : (1 : ℤ) ≤ 2 ∧ (2 : ℤ) ≤ bufSize - pbackSize := by decide
  exact hroom

theorem move_disjoint_iff_twoByTwo :
    ∃ s ∈ refillStates twoByTwo (List.replicate 3 .sbumpc) ⟨inBuffer, {}⟩,
      Disjoint s.moveSource s.moveTarget := by
  have hops : ∀ op ∈ List.replicate 3 Op.sbumpc, op.IsRead := fun op hop ↦
    .inr (.inl (List.eq_of_mem_replicate hop))
  have hnew : new 0 (fun _ ↦ 0) 3 iosIn false = .ok inBuffer := rfl
  have hmem : (runAll (call twoByTwo) (List.replicate 2 .sbumpc) ⟨inBuffer, {}⟩).2
      ∈ refillStates twoByTwo (List.replicate 3 .sbumpc) ⟨inBuffer, {}⟩ :=
    List.mem_cons_of_mem _ List.mem_cons_self
  exact ⟨_, hmem, ((move_disjoint_iff twoByTwo_reads hnew hops hmem).mpr (.inl le_rfl)).1⟩

/-- After two reads of two bytes each, the third `underflow` copies the four characters to the cells
from the first on, with two cells in both ranges. -/
theorem shortReads_overlap :
    twoByTwo.Reads ∧ ∃ b, new 0 (fun _ ↦ 0) 3 iosIn false = .ok b ∧
      ∃ s ∈ refillStates twoByTwo (List.replicate 5 .sbumpc) ⟨b, {}⟩,
        s.moveSource = Finset.Ico 2 6 ∧ s.moveTarget = Finset.Ico 0 4 ∧
          ¬ Disjoint s.moveSource s.moveTarget :=
  ⟨twoByTwo_reads, inBuffer, rfl, _,
    List.mem_cons_of_mem _ (List.mem_cons_of_mem _ List.mem_cons_self), rfl, rfl,
    by decide +kernel⟩

end Prebuffer

end CppRepo
