import CppRepo.Prebuffer.Writing

/-!
# Puts that fail

`overflow` stores its character and moves the put pointer, and then flushes. The array has one cell
behind `epptr()` for this. If the write fails, `overflow` returns `EOF`, but the character stays,
and the put pointer stays behind the cell. From there on the put area holds a character whose put
was reported as failed: the next put stores its character past the end of the array, and the next
write that takes all characters takes this one, too.

## Whose character is in a cell

`History` is a run with what is needed to say so. Calls are numbered, and `storedBy` has the number
of the call that stored the character in a cell. `taken` has the numbers of the calls whose
characters the descriptor took.
-/

namespace CppRepo

open Prebuffer (Op Reply)

variable {k : Kernel} {s t : PrebufferState} {c : UInt8} {op : Op} {r : Reply}

namespace PrebufferState

/-- Output is possible: the test in `overflow` and `flushoutput`. -/
def IsWritable (s : PrebufferState) : Prop := ¬ (!s.buf.hasOut || !s.buf.isOpen) = true

instance (s : PrebufferState) : Decidable s.IsWritable := inferInstanceAs (Decidable (¬ _ = true))

/-- `m_mode` and `m_filedes` as `close` sets them. -/
def closed (s : PrebufferState) : PrebufferState :=
  s.mapBuf fun b ↦ { b with mode := 0, filedes := -1 }

end PrebufferState

/-! ## What a call does

A flush is refused, fails, or empties the put area. So there are few kinds of calls, and they are
listed with the state each one leaves; the store past the end of the array is the one that has no
state to leave. -/

/-- What `flushoutput` may do, and what it returns. -/
inductive FlushMove (k : Kernel) (s : PrebufferState) : Option ℕ → PrebufferState → Prop
  | refused (h : ¬ s.IsWritable) : FlushMove k s none s
  | failed (h : s.IsWritable) (hr : k.writeResult s.desc.writes.length s.buf.pptr = -1) :
      FlushMove k s none (s.sent k s.buf.pptr)
  | flushed (h : s.IsWritable) (hr : k.writeResult s.desc.writes.length s.buf.pptr ≠ -1) :
      FlushMove k s (some s.buf.pptr) (s.dropped k)

/-- What a call of `sputc`, `sync` or `close` may do, and what it returns. -/
inductive PutMove (k : Kernel) (s : PrebufferState) : Op → Reply → PrebufferState → Prop
  | store (c : UInt8) (h : s.buf.pptr < Prebuffer.epptr) :
      PutMove k s (.sputc c) (.char (some c)) (s.stored c)
  | refuse (c : UInt8) (h : Prebuffer.epptr ≤ s.buf.pptr) (hclosed : ¬ s.IsWritable) :
      PutMove k s (.sputc c) (.char none) s
  | overflow {t : PrebufferState} (c : UInt8) (h : s.buf.pptr = Prebuffer.epptr)
      (hopen : s.IsWritable) (ret : Option ℕ) (hflush : FlushMove k (s.stored c) ret t) :
      PutMove k s (.sputc c) (.char (ret.map fun _ ↦ c)) t
  | sync {t : PrebufferState} (ret : Option ℕ) (r : ℤ) (hflush : FlushMove k s ret t) :
      PutMove k s .sync (.status r) t
  | close {t : PrebufferState} (ret : Option ℕ) (hopen : s.buf.isOpen = true)
      (hflush : FlushMove k s ret t) : PutMove k s .close .nothing t.closed
  | closeAgain (h : ¬ s.buf.isOpen = true) : PutMove k s .close .nothing s

namespace Prebuffer

/-- The call is one of `sputc`, `sync` and `close`. -/
def Op.IsOutput (op : Op) : Prop := (∃ c, op = .sputc c) ∨ op = .sync ∨ op = .close

theorem flushoutput_move :
    Ensures (flushoutput k) s (fun ret t ↦ FlushMove k s ret t) fun _ _ ↦ False := by
  by_cases hopen : s.IsWritable
  · rw [ensures_flushoutput_open hopen]
    by_cases hr : k.writeResult s.desc.writes.length s.buf.pptr = -1
    · rw [if_pos hr]
      exact .failed hopen hr
    · rw [if_neg hr]
      exact .flushed hopen hr
  · rw [ensures_flushoutput_closed (not_not.mp hopen)]
    exact .refused hopen

theorem sputc_move (h : s.buf.pptr ≤ epptr ∨ ¬ s.IsWritable) :
    Ensures (sputc k c) s (fun r t ↦ PutMove k s (.sputc c) (.char r) t) fun _ _ ↦ False := by
  rw [sputc, ensures_bind, ensures_get]
  by_cases hroom : s.buf.pptr < epptr
  · rw [if_pos hroom, ensures_bind, ensures_putChar (hroom.trans (by decide)), ensures_pure]
    exact .store c hroom
  · rw [if_neg hroom, overflow, ensures_bind, ensures_get]
    by_cases hopen : s.IsWritable
    · have heq : s.buf.pptr = epptr :=
        le_antisymm (h.resolve_right (not_not.mpr hopen)) (Nat.le_of_not_lt hroom)
      have hlast : s.buf.pptr < bufSize := heq.trans_lt (by decide)
      rw [if_neg hopen, ensures_bind, ensures_putChar hlast, ensures_bind]
      refine flushoutput_move.mono (fun ret t hflush ↦ ?_) fun _ _ ↦ id
      have hmove := PutMove.overflow c heq hopen ret hflush
      rcases ret with - | num
      · exact hmove
      · exact hmove
    · rw [if_pos (not_not.mp hopen)]
      exact .refuse c (Nat.le_of_not_lt hroom) hopen

private theorem sputc_past_end (h : bufSize ≤ s.buf.pptr) (hopen : s.IsWritable) :
    Ensures (sputc k c) s (fun _ _ ↦ False) fun e t ↦ e = .undefinedBehaviour ∧ t = s := by
  have hroom : ¬ s.buf.pptr < epptr := Nat.not_lt_of_le ((by decide : epptr ≤ bufSize).trans h)
  rw [sputc, ensures_bind, ensures_get, if_neg hroom, overflow, ensures_bind, ensures_get,
    if_neg hopen, ensures_bind]
  rw [putChar, ensures_bind, ensures_get, store, if_neg (Nat.not_lt_of_le h)]
  exact ⟨rfl, rfl⟩

/-- **What a call does.** -/
theorem call_putMove (hop : op.IsOutput)
    (h : s.buf.pptr ≤ epptr ∨ ¬ s.IsWritable ∨ ∀ c, op ≠ .sputc c) :
    Ensures (call k op) s (fun r t ↦ PutMove k s op r t) fun _ _ ↦ False := by
  rcases hop with ⟨c, rfl⟩ | rfl | rfl
  · rw [call, ensures_map]
    exact sputc_move (h.imp_right fun hor ↦ hor.resolve_right fun hne ↦ hne c rfl)
  · rw [call, ensures_map, sync, ensures_bind]
    refine flushoutput_move.mono (fun ret t hflush ↦ ?_) fun _ _ ↦ id
    rcases ret with - | num
    · exact .sync _ _ hflush
    · exact .sync _ _ hflush
  · rw [call, ensures_map, close, ensures_bind, ensures_get]
    by_cases hopen : s.buf.isOpen = true
    · rw [if_pos hopen, ensures_bind, sync, ensures_bind]
      refine flushoutput_move.mono (fun ret t hflush ↦ ?_) fun _ _ ↦ id
      rcases ret with - | num
      · exact .close _ hopen hflush
      · exact .close _ hopen hflush
    · rw [if_neg hopen]
      exact .closeAgain hopen

end Prebuffer

/-! ## Runs

Only the last cell can hold the character of a failed put: in front of it a put does not flush. The
invariant says that it does hold one exactly if the put pointer is behind it. As long as there is
one, a call heeds it if it puts nothing, and its write does not take all the characters. -/

/-- A run so far, with the origin of the characters. -/
structure History where
  state : PrebufferState
  replies : List (Except (Fault FileError) Reply) := []
  /-- The number of the call that stored the character in a cell. -/
  storedBy : ℕ → ℕ := fun _ ↦ 0
  /-- The numbers of the calls whose characters the descriptor took. -/
  taken : List ℕ := []

namespace History

variable {h : History} {i : ℕ}

/-- A put stores its character at the put pointer. -/
def stores (h : History) (op : Op) : ℕ → ℕ :=
  match op with
  | .sputc _ => Function.update h.storedBy h.state.buf.pptr h.replies.length
  | _ => h.storedBy

/-- The numbers of the calls whose characters the writes after `s` took. -/
def takenSince (storedBy : ℕ → ℕ) (s t : PrebufferState) : List ℕ :=
  (t.desc.writes.drop s.desc.writes.length).flatMap fun w ↦ (List.range w.2.toNat).map storedBy

/-- One more call. -/
def extend (k : Kernel) (h : History) (op : Op) : History where
  state := (runAll (Prebuffer.call k) [op] h.state).2
  replies := h.replies ++ (runAll (Prebuffer.call k) [op] h.state).1
  storedBy := h.stores op
  taken := h.taken ++ takenSince (h.stores op) h.state (runAll (Prebuffer.call k) [op] h.state).2

/-- The run of a new buffer. -/
def run (k : Kernel) (b : Prebuffer) (ops : List Op) : History :=
  ops.foldl (extend k) { state := ⟨b, {}⟩ }

/-- The call was a put, and was reported as failed. -/
def Failed (h : History) (i : ℕ) : Prop := h.replies[i]? = some (.ok (.char none))

/-- No store went past the end of the array, which would be undefined behaviour; the put pointer is
in the array or right behind it; and no character was taken whose put was reported as failed. -/
structure Upheld (h : History) : Prop where
  inBounds : ∀ r ∈ h.replies, ∃ a, r = .ok a
  pptr_mem : Prebuffer.pbase ≤ h.state.buf.pptr ∧ h.state.buf.pptr ≤ Prebuffer.pbase + bufSize
  untaken : ∀ i ∈ h.taken, ¬ h.Failed i

/-- A put failed exactly if its character is in the last cell. -/
structure Inv (h : History) : Prop where
  inBounds : ∀ r ∈ h.replies, ∃ a, r = .ok a
  pptr_le : h.state.buf.pptr ≤ bufSize
  storedBy_lt : ∀ j < h.state.buf.pptr, h.storedBy j < h.replies.length
  failed_iff : ∀ j < h.state.buf.pptr, h.Failed (h.storedBy j) ↔ j = Prebuffer.epptr
  taken_lt : ∀ i ∈ h.taken, i < h.replies.length
  untaken : ∀ i ∈ h.taken, ¬ h.Failed i

private theorem Inv.upheld (hi : Inv h) : Upheld h :=
  ⟨hi.inBounds, ⟨Nat.zero_le _, (Nat.zero_add bufSize).symm ▸ hi.pptr_le⟩, hi.untaken⟩

/-- The history after a call with this result. -/
def ended (h : History) (op : Op) (x : Except (Fault FileError) Reply) (t : PrebufferState) :
    History where
  state := t
  replies := h.replies ++ [x]
  storedBy := h.stores op
  taken := h.taken ++ takenSince (h.stores op) h.state t

private theorem extend_of_ok (hok : Prebuffer.call k op h.state = .ok r t) :
    h.extend k op = h.ended op (.ok r) t := by
  rw [extend, runAll_cons_of_ok hok]
  rfl

private theorem extend_of_error {e : Fault FileError}
    (herror : Prebuffer.call k op h.state = .error e t) :
    h.extend k op = h.ended op (.error e) t := by
  rw [extend, runAll_cons_of_error herror]
  rfl

private theorem failed_ended_of_lt (hi : i < h.replies.length) :
    (h.ended op (.ok r) t).Failed i ↔ h.Failed i := by
  rw [Failed, Failed, ended, List.getElem?_append_left hi]

private theorem failed_ended_last :
    (h.ended op (.ok r) t).Failed h.replies.length ↔ r = .char none := by
  rw [Failed, ended, List.getElem?_concat_length, Option.some.injEq, Except.ok.injEq]

private theorem stores_of_lt {j : ℕ} (hj : j < h.state.buf.pptr) :
    h.stores op j = h.storedBy j := by
  rcases op with - | - | - | c | cs | - | -
  case sputc => exact Function.update_of_ne hj.ne _ _
  all_goals rfl

private theorem stores_sputc : h.stores (.sputc c) h.state.buf.pptr = h.replies.length :=
  Function.update_self _ _ _

private theorem takenSince_self (f : ℕ → ℕ) : takenSince f s s = [] := by
  rw [takenSince, List.drop_length]
  rfl

private theorem takenSince_sent (f : ℕ → ℕ) (num : ℕ) : takenSince f s (s.sent k num)
    = (List.range (k.writeResult s.desc.writes.length num).toNat).map f := by
  have hnew : (s.sent k num).desc.writes.drop s.desc.writes.length
      = [(num, k.writeResult s.desc.writes.length num)] := List.drop_left
  rw [takenSince, hnew, List.flatMap_singleton]

private theorem takenSince_dropped (f : ℕ → ℕ) : takenSince f s (s.dropped k)
    = (List.range (k.writeResult s.desc.writes.length s.buf.pptr).toNat).map f :=
  takenSince_sent f s.buf.pptr

private theorem flush_cases {ret : Option ℕ} (hmove : FlushMove k s ret t) {f : ℕ → ℕ} :
    ret = none ∧ t.buf.pptr = s.buf.pptr ∧ takenSince f s t = [] ∨
      ret ≠ none ∧ t.buf.pptr = 0 := by
  rcases hmove with h | ⟨h, hr⟩ | ⟨h, hr⟩
  case refused => exact .inl ⟨rfl, rfl, takenSince_self f⟩
  case failed =>
    refine .inl ⟨rfl, rfl, ?_⟩
    rw [takenSince_sent, hr]
    rfl
  case flushed => exact .inr ⟨by simp, PrebufferState.pptr_dropped⟩

private theorem mem_takenSince (hk : k.WritesPosix) {ret : Option ℕ} (hmove : FlushMove k s ret t)
    {f : ℕ → ℕ} : i ∈ takenSince f s t ↔
      s.IsWritable ∧ ∃ j < s.buf.pptr,
        (j : ℤ) < k.writeResult s.desc.writes.length s.buf.pptr ∧ f j = i := by
  rcases hmove with h | ⟨h, hr⟩ | ⟨h, hr⟩
  case refused =>
    rw [takenSince_self]
    exact iff_of_false List.not_mem_nil fun hwritable ↦ h hwritable.1
  case failed =>
    rw [takenSince_sent, hr]
    refine iff_of_false List.not_mem_nil ?_
    rintro ⟨-, j, -, hlt, -⟩
    omega
  case flushed =>
    have hle := ((hk s.desc.writes.length s.buf.pptr).resolve_left hr).2.1
    rw [takenSince_dropped, List.mem_map, and_iff_right h]
    refine exists_congr fun j ↦ ?_
    rw [List.mem_range, Int.lt_toNat]
    constructor
    · rintro ⟨hlt, hf⟩
      exact ⟨by omega, hlt, hf⟩
    · rintro ⟨-, hlt, hf⟩
      exact ⟨hlt, hf⟩

end History

namespace Prebuffer

/-- The call finds no character in the put area whose put failed, or does not get to it: it is not a
put, and the write does not take all characters. -/
def Op.Heeds (k : Kernel) (op : Op) (s : PrebufferState) : Prop :=
  s.IsWritable → s.buf.pptr ≤ epptr ∨
    (∀ c, op ≠ .sputc c) ∧ k.writeResult s.desc.writes.length s.buf.pptr < bufSize

/-- So for each call of the run. -/
def RunHeeds (k : Kernel) : List Op → PrebufferState → Prop
  | [], _ => True
  | op :: ops, s => op.Heeds k s ∧ RunHeeds k ops (after (call k op) s)

end Prebuffer

namespace History

variable {h : History}

private theorem Inv.ended_of (hi : Inv h) (hpptr : t.buf.pptr ≤ bufSize)
    (hcells : ∀ j < t.buf.pptr, h.stores op j ≤ h.replies.length ∧
      ((h.ended op (.ok r) t).Failed (h.stores op j) ↔ j = Prebuffer.epptr))
    (htaken : ∀ i ∈ takenSince (h.stores op) h.state t,
      i ≤ h.replies.length ∧ ¬ (h.ended op (.ok r) t).Failed i) : Inv (h.ended op (.ok r) t) := by
  have hlength : (h.ended op (.ok r) t).replies.length = h.replies.length + 1 := List.length_append
  refine ⟨fun x hx ↦ ?_, hpptr, fun j hj ↦ ?_, fun j hj ↦ (hcells j hj).2, fun i hmem ↦ ?_,
    fun i hmem ↦ ?_⟩
  · rcases List.mem_append.mp hx with hx | hx
    · exact hi.inBounds x hx
    · exact ⟨r, List.mem_singleton.mp hx⟩
  · rw [hlength]
    exact Nat.lt_succ_of_le (hcells j hj).1
  · rw [hlength]
    rcases List.mem_append.mp hmem with hmem | hmem
    · exact (hi.taken_lt i hmem).trans (Nat.lt_succ_self _)
    · exact Nat.lt_succ_of_le (htaken i hmem).1
  · rcases List.mem_append.mp hmem with hmem | hmem
    · rw [failed_ended_of_lt (hi.taken_lt i hmem)]
      exact hi.untaken i hmem
    · exact (htaken i hmem).2

/-- The cells before the put pointer keep what is known of them. -/
theorem Inv.cell (hi : Inv h) (op : Op) (r : Reply) (t : PrebufferState) {j : ℕ}
    (hj : j < h.state.buf.pptr) :
    h.stores op j ≤ h.replies.length ∧
      ((h.ended op (.ok r) t).Failed (h.stores op j) ↔ j = Prebuffer.epptr) := by
  rw [stores_of_lt hj, failed_ended_of_lt (hi.storedBy_lt j hj)]
  exact ⟨(hi.storedBy_lt j hj).le, hi.failed_iff j hj⟩

/-- A flush that is not part of a put. -/
theorem Inv.flush (hk : k.WritesPosix) (hi : Inv h)
    (hheeds : op.Heeds k h.state) {ret : Option ℕ} (hmove : FlushMove k h.state ret t) :
    Inv (h.ended op (.ok r) t) := by
  have hlast : Prebuffer.epptr + 1 = bufSize := rfl
  refine hi.ended_of ?_ (fun j hj ↦ ?_) fun i hmem ↦ ?_
  · rcases flush_cases hmove (f := h.stores op) with ⟨-, hpptr, -⟩ | ⟨-, hpptr⟩ <;> rw [hpptr]
    · exact hi.pptr_le
    · exact Nat.zero_le _
  · rcases flush_cases hmove (f := h.stores op) with ⟨-, hpptr, -⟩ | ⟨-, hpptr⟩ <;>
      rw [hpptr] at hj
    · exact hi.cell _ _ _ hj
    · exact absurd hj (Nat.not_lt_zero j)
  · obtain ⟨hwritable, j, hj, hlt, rfl⟩ := (mem_takenSince hk hmove).mp hmem
    have hcell := hi.cell op r t hj
    refine ⟨hcell.1, fun hfailed ↦ ?_⟩
    have hj' := hcell.2.mp hfailed
    -- The last cell would have been taken.
    rcases hheeds hwritable with hpptr | ⟨-, hshort⟩
    · omega
    · omega

/-- **One step.** -/
theorem Inv.putMove (hk : k.WritesPosix) (hi : Inv h) (hheeds : op.Heeds k h.state)
    (hmove : PutMove k h.state op r t) : Inv (h.ended op (.ok r) t) := by
  have hlast : Prebuffer.epptr + 1 = bufSize := rfl
  rcases hmove with ⟨c, hlt⟩ | ⟨c, hge, hclosed⟩ | ⟨c, heq, hopen, ret, hflush⟩ |
    ⟨ret, r, hflush⟩ | ⟨ret, hopen, hflush⟩ | hclosed
  case store =>
    have hnone : takenSince (h.stores (.sputc c)) h.state (h.state.stored c) = [] :=
      takenSince_self _
    have hpptr : (h.state.stored c).buf.pptr = h.state.buf.pptr + 1 := rfl
    refine hi.ended_of (by omega) (fun j hj ↦ ?_) fun i hmem ↦ ?_
    · rcases (Nat.le_of_lt_succ (hpptr ▸ hj)).lt_or_eq with hj | rfl
      · exact hi.cell _ _ _ hj
      · rw [stores_sputc, failed_ended_last]
        exact ⟨le_rfl, iff_of_false (by simp) hlt.ne⟩
    · rw [hnone] at hmem
      exact absurd hmem List.not_mem_nil
  case refuse =>
    refine hi.ended_of hi.pptr_le (fun j hj ↦ hi.cell _ _ _ hj) fun i hmem ↦ ?_
    rw [takenSince_self] at hmem
    exact absurd hmem List.not_mem_nil
  case overflow =>
    have hpptr : (h.state.stored c).buf.pptr = h.state.buf.pptr + 1 := rfl
    have hsince : takenSince (h.stores (.sputc c)) h.state t
        = takenSince (h.stores (.sputc c)) (h.state.stored c) t := rfl
    -- What is known of the new character depends on the flush.
    have hnew : (h.ended (.sputc c) (.ok (.char (ret.map fun _ ↦ c))) t).Failed
        (h.stores (.sputc c) h.state.buf.pptr) ↔ ret = none := by
      rw [stores_sputc, failed_ended_last, Reply.char.injEq, Option.map_eq_none_iff]
    rcases flush_cases hflush (f := h.stores (.sputc c)) with
      ⟨hret, ht, hnone⟩ | ⟨hret, ht⟩
    · refine hi.ended_of (by omega) (fun j hj ↦ ?_) fun i hmem ↦ ?_
      · rcases (Nat.le_of_lt_succ ((ht.trans hpptr) ▸ hj)).lt_or_eq with hj | rfl
        · exact hi.cell _ _ _ hj
        · exact ⟨stores_sputc.le, iff_of_true (hnew.mpr hret) heq⟩
      · rw [hsince, hnone] at hmem
        exact absurd hmem List.not_mem_nil
    · refine hi.ended_of (by omega) (fun j hj ↦ ?_) fun i hmem ↦ ?_
      · exact absurd (ht ▸ hj) (Nat.not_lt_zero j)
      · rw [hsince] at hmem
        obtain ⟨-, j, hj, -, rfl⟩ := (mem_takenSince hk hflush).mp hmem
        rcases (Nat.le_of_lt_succ (hpptr ▸ hj)).lt_or_eq with hj | rfl
        · have hcell := hi.cell (.sputc c) (.char (ret.map fun _ ↦ c)) t hj
          exact ⟨hcell.1, fun hfailed ↦ hj.ne ((hcell.2.mp hfailed).trans heq.symm)⟩
        · exact ⟨stores_sputc.le, fun hfailed ↦ hret (hnew.mp hfailed)⟩
  case sync => exact hi.flush hk hheeds hflush
  case close =>
    obtain ⟨hbounds, hpptr, hstored, hfailed, htaken, huntaken⟩ :=
      hi.flush (r := .nothing) hk hheeds hflush
    exact ⟨hbounds, hpptr, hstored, hfailed, htaken, huntaken⟩
  case closeAgain =>
    refine hi.ended_of hi.pptr_le (fun j hj ↦ hi.cell _ _ _ hj) fun i hmem ↦ ?_
    rw [takenSince_self] at hmem
    exact absurd hmem List.not_mem_nil

private theorem Inv.heeds_of_upheld (hk : k.WritesPosix) (hi : Inv h) (hop : op.IsOutput)
    (hu : Upheld (h.extend k op)) : op.Heeds k h.state := by
  intro hwritable
  by_contra hno
  obtain ⟨hpast, hno⟩ := not_or.mp hno
  have hlast : Prebuffer.epptr + 1 = bufSize := rfl
  have hpptr : h.state.buf.pptr = bufSize := by
    have := hi.pptr_le
    omega
  -- What a flush takes includes the last cell.
  have hflush : ∀ {r ret t}, (∀ c, op ≠ .sputc c) → FlushMove k h.state ret t →
      ¬ ∀ i ∈ takenSince (h.stores op) h.state t, ¬ (h.ended op (.ok r) t).Failed i := by
    intro r ret t hput hmove huntaken
    have hall : bufSize ≤ k.writeResult h.state.desc.writes.length h.state.buf.pptr :=
      not_lt.mp fun hlt ↦ hno ⟨hput, hlt⟩
    have hcell := hi.cell op r t (j := Prebuffer.epptr) (by omega)
    exact huntaken _ ((mem_takenSince hk hmove).mpr
      ⟨hwritable, Prebuffer.epptr, by omega, by omega, rfl⟩) (hcell.2.mpr rfl)
  by_cases hput : ∃ c, op = .sputc c
  · obtain ⟨c, rfl⟩ := hput
    have herror : Ensures (Prebuffer.call k (.sputc c)) h.state (fun _ _ ↦ False)
        fun e t ↦ e = .undefinedBehaviour ∧ t = h.state := by
      rw [Prebuffer.call, ensures_map]
      exact Prebuffer.sputc_past_end hpptr.ge hwritable
    rcases hcall : Prebuffer.call k (.sputc c) h.state with ⟨r, t⟩ | ⟨e, t⟩
    · exact herror.of_ok hcall
    · have hmem : .error e ∈ (h.extend k (.sputc c)).replies := by
        rw [extend_of_error hcall]
        exact List.mem_append_right _ (List.mem_singleton_self _)
      obtain ⟨a, ha⟩ := hu.inBounds _ hmem
      exact absurd ha (by simp)
  · have hput' : ∀ c, op ≠ .sputc c := fun c hc ↦ hput ⟨c, hc⟩
    obtain ⟨r, t, hok, hmove⟩ :=
      (Prebuffer.call_putMove (k := k) (s := h.state) hop (.inr (.inr hput'))).exists_ok
    rw [extend_of_ok hok] at hu
    have huntaken : ∀ i ∈ takenSince (h.stores op) h.state t, ¬ (h.ended op (.ok r) t).Failed i :=
      fun i hmem ↦ hu.untaken i (List.mem_append_right _ hmem)
    rcases hmove with ⟨c, -⟩ | ⟨c, -, -⟩ | ⟨c, -, -, ret, -⟩ | ⟨ret, r, hmove⟩ |
      ⟨ret, -, hmove⟩ | hclosed
    case sync => exact hflush hput' hmove huntaken
    case close => exact hflush hput' hmove huntaken
    case closeAgain =>
      have hfalse : h.state.buf.isOpen = false := Bool.eq_false_of_not_eq_true hclosed
      refine hwritable ?_
      rw [hfalse]
      exact Bool.or_true _
    all_goals exact hput' c rfl

/-- **A run.** -/
theorem Inv.upholds_iff (hk : k.WritesPosix) (hi : Inv h) {ops : List Op}
    (hops : ∀ op ∈ ops, op.IsOutput) :
    (∀ done, done <+: ops → Upheld (done.foldl (extend k) h))
      ↔ Prebuffer.RunHeeds k ops h.state := by
  induction ops generalizing h with
  | nil =>
    refine iff_of_true (fun done hdone ↦ ?_) trivial
    rw [List.prefix_nil.mp hdone]
    exact hi.upheld
  | cons op ops ih =>
    have hop := hops op List.mem_cons_self
    have hrest : ∀ op ∈ ops, op.IsOutput := fun op hop ↦ hops op (List.mem_cons_of_mem _ hop)
    have hafter : (h.extend k op).state = after (Prebuffer.call k op) h.state := runAll_cons_state
    -- After a call that heeds it the invariant holds, so the rest of the run is as claimed.
    have hnext : op.Heeds k h.state →
        ((∀ done, done <+: ops → Upheld (done.foldl (extend k) (h.extend k op)))
          ↔ Prebuffer.RunHeeds k ops (after (Prebuffer.call k op) h.state)) := by
      intro hheeds
      have hreturns : h.state.buf.pptr ≤ Prebuffer.epptr ∨ ¬ h.state.IsWritable ∨
          ∀ c, op ≠ .sputc c := by
        by_cases hwritable : h.state.IsWritable
        · exact (hheeds hwritable).imp_right fun hshort ↦ .inr hshort.1
        · exact .inr (.inl hwritable)
      obtain ⟨r, t, hok, hmove⟩ := (Prebuffer.call_putMove (k := k) hop hreturns).exists_ok
      rw [← hafter]
      refine ih ?_ hrest
      rw [extend_of_ok hok]
      exact hi.putMove hk hheeds hmove
    constructor
    · intro hall
      have hheeds := hi.heeds_of_upheld hk hop (hall [op] ⟨ops, rfl⟩)
      refine ⟨hheeds, (hnext hheeds).mp fun done hdone ↦ ?_⟩
      exact hall (op :: done) (List.cons_prefix_cons.mpr ⟨rfl, hdone⟩)
    · rintro ⟨hheeds, hrun⟩ done hdone
      rcases done with - | ⟨op', done⟩
      · exact hi.upheld
      · obtain ⟨rfl, htail⟩ := List.cons_prefix_cons.mp hdone
        exact (hnext hheeds).mpr hrun done htail

/-- The history is that of the run. -/
theorem run_eq (b : Prebuffer) (ops : List Op) :
    ((run k b ops).replies, (run k b ops).state) = runAll (Prebuffer.call k) ops ⟨b, {}⟩ := by
  induction ops using List.reverseRecOn with
  | nil => rfl
  | append_singleton ops op ih =>
    have hextend : run k b (ops ++ [op]) = (run k b ops).extend k op := List.foldl_concat _ _ _ _
    rw [hextend, runAll_append, ← ih]
    rfl

/-! ## The origin of the characters

The numbers in `storedBy` and `taken` would be worth nothing if they were not those of the calls
whose characters they stand for. This is shown apart from the invariant, also of the runs that do
not heed. -/

/-- The characters put by the call with this number. -/
def charsOf (ops : List Op) (i : ℕ) : Bytes := (ops[i]?).elim [] Op.puts

/-- The numbers are those of the calls that put the characters. -/
structure Traced (ops : List Op) (h : History) : Prop where
  length : h.replies.length = ops.length
  cell : ∀ j < h.state.buf.pptr, charsOf ops (h.storedBy j) = [h.state.buf.buffer j]
  taken : ∀ i ∈ h.taken, charsOf ops i ≠ []
  accepted : h.state.desc.accepted = h.taken.flatMap (charsOf ops)

private theorem charsOf_append {ops : List Op} {i : ℕ} (hi : charsOf ops i ≠ []) :
    charsOf (ops ++ [op]) i = charsOf ops i := by
  have hlt : i < ops.length := by
    by_contra hge
    rw [charsOf, List.getElem?_eq_none (Nat.le_of_not_lt hge)] at hi
    exact hi rfl
  rw [charsOf, charsOf, List.getElem?_append_left hlt]

private theorem charsOf_last {ops : List Op} : charsOf (ops ++ [op]) ops.length = op.puts := by
  rw [charsOf, List.getElem?_concat_length]
  rfl

private theorem flush_accepted {ret : Option ℕ} (hk : k.WritesPosix) (hmove : FlushMove k s ret t)
    {f : ℕ → ℕ} {g : ℕ → Bytes} (hcell : ∀ j < s.buf.pptr, g (f j) = [s.buf.buffer j]) :
    t.desc.accepted = s.desc.accepted ++ (takenSince f s t).flatMap g ∧
      (∀ i ∈ takenSince f s t, g i ≠ []) ∧ t.buf.buffer = s.buf.buffer ∧
      t.buf.pptr ≤ s.buf.pptr := by
  have hne : ∀ i ∈ takenSince f s t, g i ≠ [] := by
    intro i hi
    obtain ⟨-, j, hj, -, rfl⟩ := (mem_takenSince hk hmove).mp hi
    rw [hcell j hj]
    exact List.cons_ne_nil _ _
  rcases hmove with h | ⟨h, hr⟩ | ⟨h, hr⟩
  case refused =>
    refine ⟨?_, hne, rfl, le_rfl⟩
    rw [takenSince_self, List.flatMap_nil, List.append_nil]
  case failed =>
    refine ⟨?_, hne, rfl, le_rfl⟩
    rw [takenSince_sent, PrebufferState.sent, hr]
    rfl
  case flushed =>
    refine ⟨?_, hne, rfl, PrebufferState.pptr_dropped.trans_le (Nat.zero_le _)⟩
    have haccepted : (s.dropped k).desc.accepted = s.desc.accepted ++
        (List.range (k.writeResult s.desc.writes.length s.buf.pptr).toNat).map s.buf.buffer := rfl
    have hle := ((hk s.desc.writes.length s.buf.pptr).resolve_left hr).2.1
    rw [haccepted, takenSince_dropped, List.flatMap_map, List.map_eq_flatMap]
    refine congrArg _ (List.flatMap_congr fun j hj ↦ (hcell j ?_).symm)
    have hlt := List.mem_range.mp hj
    omega

private theorem Traced.ended_of {ops : List Op} {x : Except (Fault FileError) Reply}
    (ht : Traced ops h)
    (hcell : ∀ j < t.buf.pptr, charsOf (ops ++ [op]) (h.stores op j) = [t.buf.buffer j])
    (htaken : ∀ i ∈ takenSince (h.stores op) h.state t, charsOf (ops ++ [op]) i ≠ [])
    (haccepted : t.desc.accepted = h.state.desc.accepted ++
      (takenSince (h.stores op) h.state t).flatMap (charsOf (ops ++ [op]))) :
    Traced (ops ++ [op]) (h.ended op x t) := by
  refine ⟨?_, hcell, fun i hi ↦ ?_, ?_⟩
  · have hlength : (h.ended op x t).replies.length = h.replies.length + 1 := List.length_append
    rw [hlength, ht.length, List.length_append, List.length_singleton]
  · rcases List.mem_append.mp hi with hi | hi
    · rw [charsOf_append (ht.taken i hi)]
      exact ht.taken i hi
    · exact htaken i hi
  · have htakenEq : (h.ended op x t).taken
        = h.taken ++ takenSince (h.stores op) h.state t := rfl
    have hold : h.taken.flatMap (charsOf (ops ++ [op])) = h.taken.flatMap (charsOf ops) :=
      List.flatMap_congr fun i hi ↦ charsOf_append (ht.taken i hi)
    rw [htakenEq, List.flatMap_append, hold, ← ht.accepted]
    exact haccepted

private theorem Traced.cell_append {ops : List Op} (ht : Traced ops h) (op : Op) {j : ℕ}
    (hj : j < h.state.buf.pptr) :
    charsOf (ops ++ [op]) (h.stores op j) = [h.state.buf.buffer j] := by
  rw [stores_of_lt hj, charsOf_append, ht.cell j hj]
  rw [ht.cell j hj]
  exact List.cons_ne_nil _ _

private theorem Traced.cell_stored {ops : List Op} (ht : Traced ops h) {j : ℕ}
    (hj : j < (h.state.stored c).buf.pptr) :
    charsOf (ops ++ [.sputc c]) (h.stores (.sputc c) j) = [(h.state.stored c).buf.buffer j] := by
  have hbuffer : (h.state.stored c).buf.buffer
      = Function.update h.state.buf.buffer h.state.buf.pptr c := rfl
  have hpptr : (h.state.stored c).buf.pptr = h.state.buf.pptr + 1 := rfl
  rcases (Nat.le_of_lt_succ (hpptr ▸ hj)).lt_or_eq with hj | rfl
  · rw [ht.cell_append _ hj, hbuffer, Function.update_of_ne hj.ne]
  · rw [stores_sputc, ht.length, charsOf_last, hbuffer, Function.update_self]
    rfl

/-- A call that changes nothing. -/
theorem Traced.unchanged {ops : List Op} {x : Except (Fault FileError) Reply} (ht : Traced ops h) :
    Traced (ops ++ [op]) (h.ended op x h.state) := by
  refine ht.ended_of (fun j hj ↦ ht.cell_append _ hj) ?_ ?_ <;> rw [takenSince_self]
  · exact fun i hi ↦ absurd hi List.not_mem_nil
  · exact (List.append_nil _).symm

/-- **One step.** -/
theorem Traced.putMove (hk : k.WritesPosix) {ops : List Op} (ht : Traced ops h)
    (hmove : PutMove k h.state op r t) : Traced (ops ++ [op]) (h.ended op (.ok r) t) := by
  rcases hmove with ⟨c, hlt⟩ | ⟨c, hge, hclosed⟩ | ⟨c, heq, hopen, ret, hflush⟩ |
    ⟨ret, r, hflush⟩ | ⟨ret, hopen, hflush⟩ | hclosed
  case store =>
    have hnone : takenSince (h.stores (.sputc c)) h.state (h.state.stored c) = [] :=
      takenSince_self _
    refine ht.ended_of (fun j hj ↦ ht.cell_stored hj) ?_ ?_ <;> rw [hnone]
    · exact fun i hi ↦ absurd hi List.not_mem_nil
    · exact (List.append_nil _).symm
  case overflow =>
    obtain ⟨haccepted, htaken, hbuffer, hpptr⟩ :=
      flush_accepted hk hflush fun j hj ↦ ht.cell_stored hj
    refine ht.ended_of (fun j hj ↦ ?_) htaken haccepted
    rw [ht.cell_stored (hj.trans_le hpptr), hbuffer]
  case sync =>
    obtain ⟨haccepted, htaken, hbuffer, hpptr⟩ :=
      flush_accepted hk hflush fun j hj ↦ ht.cell_append .sync hj
    refine ht.ended_of (fun j hj ↦ ?_) htaken haccepted
    rw [ht.cell_append _ (hj.trans_le hpptr), hbuffer]
  case close t =>
    obtain ⟨haccepted, htaken, hbuffer, hpptr⟩ :=
      flush_accepted hk hflush fun j hj ↦ ht.cell_append .close hj
    have hpptr' : t.closed.buf.pptr ≤ h.state.buf.pptr := hpptr
    have hbuffer' : t.closed.buf.buffer = h.state.buf.buffer := hbuffer
    refine ht.ended_of (fun j hj ↦ ?_) htaken haccepted
    rw [ht.cell_append _ (hj.trans_le hpptr'), hbuffer']
  case refuse => exact ht.unchanged
  case closeAgain => exact ht.unchanged

private theorem Traced.extend (hk : k.WritesPosix) {ops : List Op} (ht : Traced ops h)
    (hop : op.IsOutput) : Traced (ops ++ [op]) (h.extend k op) := by
  by_cases hreturns : h.state.buf.pptr ≤ Prebuffer.epptr ∨ ¬ h.state.IsWritable ∨
      ∀ c, op ≠ .sputc c
  · obtain ⟨r, t, hok, hmove⟩ := (Prebuffer.call_putMove (k := k) hop hreturns).exists_ok
    rw [extend_of_ok hok]
    exact ht.putMove hk hmove
  · push Not at hreturns
    obtain ⟨hpptr, hwritable, c, rfl⟩ := hreturns
    have herror : Ensures (Prebuffer.call k (.sputc c)) h.state (fun _ _ ↦ False)
        fun e t ↦ e = .undefinedBehaviour ∧ t = h.state := by
      rw [Prebuffer.call, ensures_map]
      exact Prebuffer.sputc_past_end hpptr hwritable
    rcases hcall : Prebuffer.call k (.sputc c) h.state with ⟨r, t⟩ | ⟨e, t⟩
    · exact (herror.of_ok hcall).elim
    · obtain ⟨-, rfl⟩ := herror.of_error hcall
      rw [extend_of_error hcall]
      exact ht.unchanged

/-- The descriptor took the characters of the calls that `taken` names. -/
theorem accepted_run (hk : k.WritesPosix) {b : Prebuffer} (hpptr : b.pptr = 0) {ops : List Op}
    (hops : ∀ op ∈ ops, op.IsOutput) : Traced ops (run k b ops) := by
  induction ops using List.reverseRecOn with
  | nil =>
    refine ⟨rfl, fun j hj ↦ ?_, fun i hi ↦ absurd hi List.not_mem_nil, rfl⟩
    exact absurd (hj.trans_eq hpptr) (Nat.not_lt_zero j)
  | append_singleton ops op ih =>
    have hextend : run k b (ops ++ [op]) = (run k b ops).extend k op := List.foldl_concat _ _ _ _
    rw [hextend]
    exact (ih fun op' hop' ↦ hops op' (List.mem_append_left _ hop')).extend hk
      (hops op (List.mem_append_right _ (List.mem_singleton_self op)))

end History

namespace Prebuffer

/-- **Puts that fail.** At every moment of a run no store has gone past the end of the array, the
put pointer is in the array or right behind it, and no character was taken whose put was reported as
failed, exactly if each call finds no character of a failed put in the put area or does not get to
it. -/
theorem upheld_iff {mode om : UInt32} {buffer : ℕ → UInt8} {fd : ℤ} {thr : Bool} {b : Prebuffer}
    (hk : k.WritesPosix) (hnew : new mode buffer fd om thr = .ok b) {ops : List Op}
    (hops : ∀ op ∈ ops, op.IsOutput) :
    (∀ done, done <+: ops → (History.run k b done).Upheld) ↔ RunHeeds k ops ⟨b, {}⟩ := by
  have hpptr : b.pptr = 0 := (tallies_new hnew).2
  have hstart : History.Inv { state := ⟨b, {}⟩ } :=
    ⟨fun r hr ↦ absurd hr List.not_mem_nil, hpptr.trans_le (Nat.zero_le _),
      fun j hj ↦ absurd (hpptr ▸ hj) (Nat.not_lt_zero j),
      fun j hj ↦ absurd (hpptr ▸ hj) (Nat.not_lt_zero j), fun i hi ↦ absurd hi List.not_mem_nil,
      fun i hi ↦ absurd hi List.not_mem_nil⟩
  exact hstart.upholds_iff hk hops

/-- A descriptor that takes nothing. -/
private def failingWrites : Kernel := ⟨fun _ ↦ 0, fun _ ↦ 0, fun _ _ ↦ -1⟩

private theorem failingWrites_posix : failingWrites.WritesPosix := fun _ _ ↦ .inl rfl

/-- A new buffer for output on such a descriptor. -/
private def failingBuffer : Prebuffer :=
  ⟨iosOut, 3, fun _ ↦ 0, pbackSize, pbackSize, pbackSize, pbase⟩

theorem upheld_iff_failedSync :
    (History.run failingWrites failingBuffer [.sputc 97, .sync, .close]).Upheld := by
  have hnew : new 0 (fun _ ↦ 0) 3 iosOut false = .ok failingBuffer := rfl
  have hops : ∀ op ∈ [Op.sputc 97, .sync, .close], op.IsOutput := by simp [Op.IsOutput]
  have hrun : RunHeeds failingWrites [.sputc 97, .sync, .close] ⟨failingBuffer, {}⟩ :=
    ⟨fun _ ↦ .inl (by decide), fun _ ↦ .inl (by decide), fun _ ↦ .inl (by decide), trivial⟩
  exact (upheld_iff failingWrites_posix hnew hops).mpr hrun _ List.prefix_rfl

private theorem runAll_sputc (n : ℕ) (h : s.buf.pptr + n ≤ epptr) :
    ∃ t, runAll (call k) (List.replicate n (.sputc c)) s
        = (List.replicate n (.ok (.char (some c))), t) ∧
      t.buf.pptr = s.buf.pptr + n ∧ (t.IsWritable ↔ s.IsWritable) := by
  induction n generalizing s with
  | zero => exact ⟨s, rfl, rfl, Iff.rfl⟩
  | succ n ih =>
    have hput : Ensures (call k (.sputc c)) s
        (fun r t ↦ r = .char (some c) ∧ t = s.stored c) fun _ _ ↦ False := by
      have hroom : s.buf.pptr < epptr := by omega
      rw [call, ensures_map, sputc, ensures_bind, ensures_get, if_pos hroom, ensures_bind,
        ensures_putChar (hroom.trans (by decide)), ensures_pure]
      exact ⟨rfl, rfl⟩
    obtain ⟨r, t, hok, rfl, rfl⟩ := hput.exists_ok
    have hpptr : (s.stored c).buf.pptr = s.buf.pptr + 1 := rfl
    obtain ⟨t, hrun, ht, hwritable⟩ := ih (s := s.stored c) (by omega)
    refine ⟨t, ?_, by omega, hwritable⟩
    rw [List.replicate_succ, runAll_cons_of_ok hok, hrun]
    rfl

/-- The array is filled, the put that flushes it fails, and the next put stores its character past
the end. -/
theorem put_after_failed_put_past_end :
    failingWrites.WritesPosix ∧ ∃ b, new 0 (fun _ ↦ 0) 3 iosOut false = .ok b ∧
      (runAll (call failingWrites) (List.replicate 4091 (.sputc 97) ++ [.sputc 98, .sputc 99])
          ⟨b, {}⟩).1
        = List.replicate 4091 (.ok (.char (some 97)))
          ++ [.ok (.char none), .error .undefinedBehaviour] := by
  refine ⟨failingWrites_posix, failingBuffer, rfl, ?_⟩
  obtain ⟨t, hrun, hpptr, hwritable⟩ :=
    runAll_sputc (k := failingWrites) (c := 97) (s := ⟨failingBuffer, {}⟩) 4091 (by decide)
  have hopen : t.IsWritable := hwritable.mpr (by decide)
  have heq : t.buf.pptr = epptr := hpptr
  have hfails : Ensures (call failingWrites (.sputc 98)) t
      (fun r u ↦ r = .char none ∧ u = (t.stored 98).sent failingWrites (t.stored 98).buf.pptr)
      fun _ _ ↦ False := by
    have hroom : ¬ t.buf.pptr < epptr := heq.not_lt
    have hresult : failingWrites.writeResult (t.stored 98).desc.writes.length
        (t.stored 98).buf.pptr = -1 := rfl
    rw [call, ensures_map, sputc, ensures_bind, ensures_get, if_neg hroom, overflow, ensures_bind,
      ensures_get, if_neg hopen, ensures_bind, ensures_putChar (heq.trans_lt (by decide)),
      ensures_bind, ensures_flushoutput_open (s := t.stored 98) hopen, if_pos hresult, ensures_pure]
    exact ⟨rfl, rfl⟩
  obtain ⟨r, u, hok, rfl, hu⟩ := hfails.exists_ok
  have hpast : bufSize ≤ u.buf.pptr := by
    rw [hu]
    exact (congrArg (· + 1) heq).ge
  have hopen' : u.IsWritable := by
    rw [hu]
    exact hopen
  have herror : Ensures (call failingWrites (.sputc 99)) u (fun _ _ ↦ False)
      fun e v ↦ e = .undefinedBehaviour ∧ v = u := by
    rw [call, ensures_map]
    exact sputc_past_end hpast hopen'
  rw [runAll_append, hrun, runAll_cons_of_ok hok]
  rcases hcall : call failingWrites (.sputc 99) u with ⟨r, v⟩ | ⟨e, v⟩
  · exact (herror.of_ok hcall).elim
  · obtain ⟨rfl, -⟩ := herror.of_error hcall
    rw [runAll_cons_of_error hcall, runAll_nil]

end Prebuffer

end CppRepo
