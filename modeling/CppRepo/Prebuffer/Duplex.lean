import CppRepo.Library.Machine
import CppRepo.Prebuffer.Reading
import CppRepo.Prebuffer.Writing

/-!
# Both sides on one array

With the mode `in|out` the get area and the put area share the array. The put area starts at its
beginning, a refill writes from the put-back area to the end of what it read, and neither side looks
at the pointers of the other. A call leaves the other side alone when it writes to no cell the other
side still needs: a put does when its cell holds no character that is still to be read, and a refill
does when the pending characters lie below the cells it fills.

In a run of such calls each side behaves as if it were alone, which is what `undisturbed` says: a
machine whose answers to the calls of the get side depend on a cursor only, and on nothing for the
calls of the put side.
-/

namespace CppRepo

open Prebuffer (Op Reply)

variable {k : Kernel} {s t : PrebufferState} {bytes : Bytes} {c : UInt8}

/-- Each write takes all its bytes. -/
def Kernel.WritesAll (k : Kernel) : Prop := ∀ i (n : ℕ), k.writeResult i n = n

namespace Prebuffer

/-! ## Calls that stay apart

The condition is on the state before each call. For `sputn`, which puts its characters one after the
other, it is one on each of the states it goes through. -/

/-- The cell of the next put holds no character that is still to be read. -/
def PutApart (s : PrebufferState) : Prop :=
  ¬ (s.buf.gptr ≤ s.buf.pptr ∧ s.buf.pptr < s.buf.egptr)

/-- If the next read refills the get area, the cells it fills hold no pending character. -/
def RefillApart (s : PrebufferState) : Prop :=
  s.buf.gptr = s.buf.egptr →
    s.buf.pptr + min (s.buf.gptr - s.buf.eback) pbackSize ≤ pbackSize

/-- Each put of these characters, one after the other, stays apart. -/
def PutsApart (k : Kernel) : Bytes → PrebufferState → Prop
  | [], _ => True
  | c :: cs, s => PutApart s ∧ PutsApart k cs (after (sputc k c) s)

/-- The call is a read, a put or a `sync`, and stays apart from the other side. -/
def Op.Apart (k : Kernel) : Op → PrebufferState → Prop
  | .sgetc, s => RefillApart s
  | .sbumpc, s => RefillApart s
  | .sputc _, s => PutApart s
  | .sputn cs, s => PutsApart k cs s
  | .sync, _ => True
  | .sungetc, _ => False
  | .close, _ => False

/-- Each call of the run stays apart from the other side. -/
def RunApart (k : Kernel) : List Op → PrebufferState → Prop
  | [], _ => True
  | op :: ops, s => op.Apart k s ∧ RunApart k ops (after (call k op) s)

/-- What the calls return if the sides do not disturb each other, given how many characters have
been read. -/
def undisturbed (incoming : ℕ → UInt8) (cursor : ℕ) : Op → Reply × ℕ
  | .sgetc => (.char (some (incoming cursor)), cursor)
  | .sbumpc => (.char (some (incoming cursor)), cursor + 1)
  | .sungetc => (.char none, cursor)
  | .sputc c => (.char (some c), cursor)
  | .sputn cs => (.count cs.length, cursor)
  | .sync => (.status 0, cursor)
  | .close => (.nothing, cursor)

end Prebuffer

/-! ## The two areas

The get area is what is still to be read, from the get pointer on; what is in front of it may have
been overwritten, which is why `sungetc` is left out. The put area is what is pending. -/

/-- The get area holds the bytes that were returned and are still to be read, the put area those
that were put and are still to be written. -/
structure Duplex (k : Kernel) (s : PrebufferState) (bytes : Bytes) : Prop where
  gptr_le : s.buf.gptr ≤ s.buf.egptr
  egptr_le : s.buf.egptr ≤ bufSize
  read_le : s.buf.egptr ≤ s.desc.position + s.buf.gptr
  unread : ∀ i, s.buf.gptr ≤ i → i < s.buf.egptr →
    s.buf.buffer i = k.incoming (s.desc.position + i - s.buf.egptr)
  conserved : s.desc.accepted ++ s.pending = bytes
  out : ¬ (!s.buf.hasOut || !s.buf.isOpen) = true

namespace Duplex

open Prebuffer

theorem cell_gptr (hd : Duplex k s bytes) (h : s.buf.gptr < s.buf.egptr) :
    s.buf.buffer s.buf.gptr = k.incoming s.cursor := hd.unread s.buf.gptr le_rfl h

theorem gbump (hd : Duplex k s bytes) (h : s.buf.gptr < s.buf.egptr) :
    Duplex k (s.mapBuf Prebuffer.gbump) bytes ∧
      (s.mapBuf Prebuffer.gbump).cursor = s.cursor + 1 := by
  have hread := hd.read_le
  refine ⟨⟨h, hd.egptr_le, hread.trans (Nat.le_succ _),
    fun i hi ↦ hd.unread i (Nat.le_of_succ_le hi), hd.conserved, hd.out⟩, ?_⟩
  simp only [PrebufferState.cursor, PrebufferState.mapBuf, Prebuffer.gbump]
  omega

/-- A refill that stays apart fills the get area and leaves the pending characters. -/
theorem refilled (hk : k.Reads) (hd : Duplex k s bytes) (h : s.buf.gptr = s.buf.egptr)
    (hapart : RefillApart s) :
    Duplex k (s.refilled k) bytes ∧ (s.refilled k).cursor = s.cursor ∧
      (s.refilled k).buf.gptr < (s.refilled k).buf.egptr := by
  have hroom := hapart h
  obtain ⟨hlow, hhigh⟩ := hk s.desc.reads
  have hsize : pbackSize ≤ bufSize := by decide
  set num := (k.readResult s.desc.reads).toNat with hnumdef
  have hposition : (s.refilled k).desc.position = s.desc.position + num := rfl
  have hgptr : (s.refilled k).buf.gptr = pbackSize := rfl
  have hegptr : (s.refilled k).buf.egptr = pbackSize + num := rfl
  have hcursor : s.cursor = s.desc.position := by
    rw [PrebufferState.cursor, h, Nat.add_sub_cancel]
  refine ⟨⟨?_, ?_, ?_, fun i hi hi' ↦ ?_, ?_, hd.out⟩, ?_, ?_⟩
  · rw [hgptr, hegptr]
    exact Nat.le_add_right _ _
  · rw [hegptr]
    omega
  · rw [hgptr, hegptr, hposition]
    omega
  · rw [hgptr] at hi
    rw [hegptr] at hi'
    have hcell : (s.refilled k).buf.buffer i = k.incoming (s.desc.position + (i - pbackSize)) :=
      PrebufferState.received_of_mem hi hi'
    rw [hcell, hposition, hegptr]
    congr 1
    omega
  · -- The pending characters lie below the cells that are filled.
    have hcells : ∀ i ∈ List.range s.buf.pptr, (s.refilled k).buf.buffer i = s.buf.buffer i := by
      intro i hi
      have hlt := List.mem_range.mp hi
      exact (PrebufferState.received_of_not_mem fun hmem ↦ by omega).trans
        (Prebuffer.copyCells_of_not_mem fun hmem ↦ by omega)
    have hpending : (s.refilled k).pending = s.pending := List.map_congr_left hcells
    rw [hpending]
    exact hd.conserved
  · rw [PrebufferState.cursor, hposition, hgptr, hegptr, hcursor]
    omega
  · rw [hgptr, hegptr]
    omega

/-- A put that stays apart adds its character and leaves the characters to be read. -/
theorem stored (hd : Duplex k s bytes) (hapart : PutApart s) :
    Duplex k (s.stored c) (bytes ++ [c]) := by
  refine ⟨hd.gptr_le, hd.egptr_le, hd.read_le, fun i hi hi' ↦ ?_, ?_, hd.out⟩
  · have hne : i ≠ s.buf.pptr := by
      rintro rfl
      exact hapart ⟨hi, hi'⟩
    exact (Function.update_of_ne hne _ _).trans (hd.unread i hi hi')
  · rw [PrebufferState.pending_stored, ← List.append_assoc]
    exact congrArg (· ++ [c]) hd.conserved

/-- A complete write empties the put area and leaves the characters to be read. -/
theorem dropped (hk : k.WritesAll) (hd : Duplex k s bytes) : Duplex k (s.dropped k) bytes := by
  refine ⟨hd.gptr_le, hd.egptr_le, hd.read_le, hd.unread, ?_, hd.out⟩
  have haccepted : (s.dropped k).desc.accepted = s.desc.accepted
      ++ (List.range (k.writeResult s.desc.writes.length s.buf.pptr).toNat).map s.buf.buffer := rfl
  rw [haccepted, PrebufferState.pending_dropped, List.append_nil, hk, Int.toNat_natCast]
  exact hd.conserved

/-! ## One call

Without the other side a read returns the character at the cursor and a put the character that was
put. The calls are followed to the parts that touch the array, and each of these leaves the two
areas in order. -/

theorem ensures_underflow (hk : k.Reads) (hd : Duplex k s bytes) (hapart : RefillApart s) :
    Ensures (underflow k) s
      (fun r t ↦ r = some (k.incoming s.cursor) ∧ Duplex k t bytes ∧ t.cursor = s.cursor ∧
        t.buf.gptr < t.buf.egptr ∧ t.buf.pptr = s.buf.pptr)
      fun _ _ ↦ False := by
  rcases Nat.lt_or_eq_of_le hd.gptr_le with h | h
  · rw [ensures_underflow_of_lt h hd.egptr_le, hd.cell_gptr h]
    exact ⟨rfl, hd, rfl, h, rfl⟩
  · obtain ⟨hd', hcursor, hlt⟩ := hd.refilled hk h hapart
    have hcell : (s.refilled k).buf.buffer pbackSize = k.incoming (s.refilled k).cursor :=
      hd'.cell_gptr hlt
    rw [ensures_underflow_of_eq (hk _).1 h hd.egptr_le, hcell, hcursor]
    exact ⟨rfl, hd', rfl, hlt, rfl⟩

theorem ensures_sgetc (hk : k.Reads) (hd : Duplex k s bytes) (hapart : RefillApart s) :
    Ensures (sgetc k) s
      (fun r t ↦ r = some (k.incoming s.cursor) ∧ Duplex k t bytes ∧ t.cursor = s.cursor ∧
        t.buf.pptr = s.buf.pptr)
      fun _ _ ↦ False := by
  rw [sgetc, ensures_bind, ensures_get]
  by_cases h : s.buf.gptr < s.buf.egptr
  · rw [if_pos h, ensures_bind, ensures_load (h.trans_le hd.egptr_le), ensures_pure,
      hd.cell_gptr h]
    exact ⟨rfl, hd, rfl, rfl⟩
  · rw [if_neg h]
    refine (hd.ensures_underflow hk hapart).mono ?_ fun _ _ ↦ id
    rintro r t ⟨rfl, hd', hcursor, -, hpptr⟩
    exact ⟨rfl, hd', hcursor, hpptr⟩

theorem ensures_sbumpc (hk : k.Reads) (hd : Duplex k s bytes) (hapart : RefillApart s) :
    Ensures (sbumpc k) s
      (fun r t ↦ r = some (k.incoming s.cursor) ∧ Duplex k t bytes ∧ t.cursor = s.cursor + 1 ∧
        t.buf.pptr = s.buf.pptr)
      fun _ _ ↦ False := by
  rw [sbumpc, ensures_bind, ensures_get]
  by_cases h : s.buf.gptr < s.buf.egptr
  · obtain ⟨hd', hcursor⟩ := hd.gbump h
    rw [if_pos h, ensures_bind, ensures_load (h.trans_le hd.egptr_le), ensures_bind,
      ensures_modify, ensures_pure, hd.cell_gptr h]
    exact ⟨rfl, hd', hcursor, rfl⟩
  · rw [if_neg h, uflow, ensures_bind]
    refine (hd.ensures_underflow hk hapart).mono ?_ fun _ _ ↦ id
    rintro r t ⟨rfl, hd', hcursor, hlt, hpptr⟩
    obtain ⟨hd'', hcursor'⟩ := hd'.gbump hlt
    rw [ensures_bind, ensures_get, ensures_bind, ensures_load (hlt.trans_le hd'.egptr_le),
      ensures_bind, ensures_modify, ensures_pure, hd'.cell_gptr hlt, ← hcursor]
    exact ⟨rfl, hd'', hcursor', hpptr⟩

theorem ensures_flushoutput (hk : k.WritesAll) (hd : Duplex k s bytes) :
    Ensures (flushoutput k) s
      (fun r t ↦ r ≠ none ∧ Duplex k t bytes ∧ t.cursor = s.cursor ∧ t.buf.pptr = 0)
      fun _ _ ↦ False := by
  have hr : ¬ k.writeResult s.desc.writes.length s.buf.pptr = -1 := by
    rw [hk]
    omega
  rw [ensures_flushoutput_open hd.out, if_neg hr]
  exact ⟨by simp, hd.dropped hk, rfl, PrebufferState.pptr_dropped⟩

theorem ensures_sputc (hk : k.WritesAll) (hd : Duplex k s bytes) (hp : s.buf.pptr ≤ epptr)
    (hapart : PutApart s) :
    Ensures (sputc k c) s
      (fun r t ↦ r = some c ∧ Duplex k t (bytes ++ [c]) ∧ t.cursor = s.cursor ∧
        t.buf.pptr ≤ epptr)
      fun _ _ ↦ False := by
  rw [sputc, ensures_bind, ensures_get]
  by_cases hroom : s.buf.pptr < epptr
  · rw [if_pos hroom, ensures_bind, ensures_putChar (hroom.trans (by decide)), ensures_pure]
    exact ⟨rfl, hd.stored hapart, rfl, hroom⟩
  · have hlast : s.buf.pptr < bufSize := hp.trans_lt (by decide)
    rw [if_neg hroom, overflow, ensures_bind, ensures_get, if_neg hd.out, ensures_bind,
      ensures_putChar hlast, ensures_bind]
    refine ((hd.stored hapart).ensures_flushoutput hk).mono ?_ fun _ _ ↦ id
    rintro (- | num) t ⟨hr, hd', hcursor, hpptr⟩
    · exact absurd rfl hr
    · exact ⟨rfl, hd', hcursor, hpptr ▸ Nat.zero_le _⟩

theorem ensures_sputn (hk : k.WritesAll) (hd : Duplex k s bytes) (hp : s.buf.pptr ≤ epptr)
    {cs : Bytes} (hapart : PutsApart k cs s) :
    Ensures (sputn k cs) s
      (fun n t ↦ n = cs.length ∧ Duplex k t (bytes ++ cs) ∧ t.cursor = s.cursor ∧
        t.buf.pptr ≤ epptr)
      fun _ _ ↦ False := by
  induction cs generalizing s bytes with
  | nil =>
    rw [sputn, ensures_pure, List.append_nil]
    exact ⟨rfl, hd, rfl, hp⟩
  | cons c cs ih =>
    obtain ⟨hfirst, hrest⟩ := hapart
    obtain ⟨r, t, hok, rfl, hd', hcursor, hp'⟩ := (hd.ensures_sputc hk hp hfirst).exists_ok
    rw [after_of_ok hok] at hrest
    rw [sputn, ensures_bind, Ensures, hok]
    show Ensures (sputn k cs >>= fun n ↦ pure (1 + n)) t _ _
    rw [ensures_bind]
    refine (ih hd' hp' hrest).mono ?_ fun _ _ ↦ id
    rintro n u ⟨rfl, hd'', hcursor', hp''⟩
    rw [List.append_assoc] at hd''
    exact ⟨Nat.add_comm _ _, hd'', hcursor'.trans hcursor, hp''⟩

/-- A call that stays apart returns what it would return without the other side. -/
theorem ensures_call (hr : k.Reads) (hk : k.WritesAll) (hd : Duplex k s bytes)
    (hp : s.buf.pptr ≤ epptr) {op : Op} (hapart : op.Apart k s) :
    Ensures (call k op) s
      (fun r t ↦ (r, t.cursor) = undisturbed k.incoming s.cursor op ∧
        Duplex k t (bytes ++ op.puts) ∧ t.buf.pptr ≤ epptr ∧ (op = .sync → t.buf.pptr = 0))
      fun _ _ ↦ False := by
  match op, hapart with
  | .sgetc, hapart =>
    rw [call, ensures_map, Op.puts, List.append_nil]
    refine (hd.ensures_sgetc hr hapart).mono ?_ fun _ _ ↦ id
    rintro r t ⟨rfl, hd', hcursor, hpptr⟩
    exact ⟨by rw [hcursor, undisturbed], hd', hpptr ▸ hp, fun h ↦ Op.noConfusion h⟩
  | .sbumpc, hapart =>
    rw [call, ensures_map, Op.puts, List.append_nil]
    refine (hd.ensures_sbumpc hr hapart).mono ?_ fun _ _ ↦ id
    rintro r t ⟨rfl, hd', hcursor, hpptr⟩
    exact ⟨by rw [hcursor, undisturbed], hd', hpptr ▸ hp, fun h ↦ Op.noConfusion h⟩
  | .sputc c, hapart =>
    rw [call, ensures_map]
    refine (hd.ensures_sputc hk hp hapart).mono ?_ fun _ _ ↦ id
    rintro r t ⟨rfl, hd', hcursor, hp'⟩
    exact ⟨by rw [hcursor, undisturbed], hd', hp', fun h ↦ Op.noConfusion h⟩
  | .sputn cs, hapart =>
    rw [call, ensures_map]
    refine (hd.ensures_sputn hk hp hapart).mono ?_ fun _ _ ↦ id
    rintro n t ⟨rfl, hd', hcursor, hp'⟩
    exact ⟨by rw [hcursor, undisturbed], hd', hp', fun h ↦ Op.noConfusion h⟩
  | .sync, _ =>
    rw [call, ensures_map, sync, ensures_bind, Op.puts, List.append_nil]
    refine (hd.ensures_flushoutput hk).mono ?_ fun _ _ ↦ id
    rintro (- | num) t ⟨hsome, hd', hcursor, hpptr⟩
    · exact absurd rfl hsome
    · exact ⟨by rw [hcursor, undisturbed], hd', hpptr ▸ Nat.zero_le _, fun _ ↦ hpptr⟩

private theorem runAll_undisturbed (hr : k.Reads) (hk : k.WritesAll) (hd : Duplex k s bytes)
    (hp : s.buf.pptr ≤ epptr) {ops : List Op} (hapart : RunApart k ops s) :
    (runAll (call k) ops s).1 = (run (undisturbed k.incoming) s.cursor ops).1.map .ok ∧
      Duplex k (runAll (call k) ops s).2 (bytes ++ ops.flatMap Op.puts) ∧
      (runAll (call k) ops s).2.cursor = (run (undisturbed k.incoming) s.cursor ops).2 ∧
      (ops.getLast? = some .sync → (runAll (call k) ops s).2.buf.pptr = 0) := by
  induction ops generalizing s bytes with
  | nil =>
    rw [List.flatMap_nil, List.append_nil]
    exact ⟨rfl, hd, rfl, fun h ↦ absurd h (by simp)⟩
  | cons op ops ih =>
    obtain ⟨hfirst, hrest⟩ := hapart
    obtain ⟨r, t, hok, hstep, hd', hp', hsync⟩ := (hd.ensures_call hr hk hp hfirst).exists_ok
    rw [after_of_ok hok] at hrest
    obtain ⟨hreplies, hd'', hcursor, hlast⟩ := ih hd' hp' hrest
    rw [runAll_cons_of_ok hok, run, ← hstep, List.flatMap_cons, ← List.append_assoc, List.map_cons]
    refine ⟨congrArg _ hreplies, hd'', hcursor, fun h ↦ ?_⟩
    rcases ops with - | ⟨op', ops⟩
    · exact hsync (by simpa using h)
    · exact hlast (by rwa [List.getLast?_cons_cons] at h)

end Duplex

namespace Prebuffer

private theorem duplex_new {mode : UInt32} {buffer : ℕ → UInt8} {fd : ℤ} {thr : Bool}
    {b : Prebuffer} (hfd : 0 < fd) (hnew : new mode buffer fd (iosIn ||| iosOut) thr = .ok b) :
    Duplex k ⟨b, {}⟩ [] ∧ b.pptr = 0 ∧ (⟨b, {}⟩ : PrebufferState).cursor = 0 := by
  have hsize : pbackSize ≤ bufSize := by decide
  have hout : ((iosIn ||| iosOut) &&& iosOut != 0) = true := by decide
  rw [new, if_neg fun h ↦ h.2 hfd.le] at hnew
  obtain rfl := Except.ok.inj hnew
  refine ⟨⟨le_rfl, hsize, Nat.le_add_left _ _, fun i hi hi' ↦ absurd hi' (Nat.not_lt_of_ge hi), rfl,
    ?_⟩, rfl, rfl⟩
  simp only [hasOut, isOpen, if_pos hfd, hout, hfd.le, decide_true]
  decide

/-- **Both sides.** In a run on a buffer opened for both directions whose calls all stay apart,
every call returns what it would return without the other side, the bytes written followed by the
pending ones are those that were put, and all of them are written after a `sync`. -/
theorem sides_undisturbed {mode : UInt32} {buffer : ℕ → UInt8} {fd : ℤ} {thr : Bool} {b : Prebuffer}
    (hr : k.Reads) (hk : k.WritesAll) (hfd : 0 < fd)
    (hnew : new mode buffer fd (iosIn ||| iosOut) thr = .ok b) {ops : List Op}
    (hapart : RunApart k ops ⟨b, {}⟩) :
    (runAll (call k) ops ⟨b, {}⟩).1 = (run (undisturbed k.incoming) 0 ops).1.map .ok ∧
      (run (undisturbed k.incoming) 0 ops).2
        ≤ (runAll (call k) ops ⟨b, {}⟩).2.desc.position ∧
      (runAll (call k) ops ⟨b, {}⟩).2.desc.accepted ++ (runAll (call k) ops ⟨b, {}⟩).2.pending
        = ops.flatMap Op.puts ∧
      (ops.getLast? = some .sync →
        (runAll (call k) ops ⟨b, {}⟩).2.desc.accepted = ops.flatMap Op.puts) := by
  obtain ⟨hd, hp, hcursor⟩ := duplex_new (k := k) hfd hnew
  obtain ⟨hreplies, hd', hcursor', hlast⟩ :=
    hd.runAll_undisturbed hr hk (show b.pptr ≤ epptr from hp ▸ Nat.zero_le _) hapart
  rw [hcursor] at hreplies hcursor'
  have hconserved := hd'.conserved
  rw [List.nil_append] at hconserved
  refine ⟨hreplies, ?_, hconserved, fun hsync ↦ ?_⟩
  · rw [← hcursor', PrebufferState.cursor]
    have hle := hd'.gptr_le
    omega
  · rw [← hconserved, PrebufferState.pending, hlast hsync]
    exact (List.append_nil _).symm

/-- A descriptor that returns zeros and does every read and write in full. -/
private def zeros : Kernel := ⟨fun _ ↦ 0, fun _ ↦ 4088, fun _ n ↦ n⟩

/-- A new buffer for both directions. -/
private def bothBuffer : Prebuffer :=
  ⟨iosIn ||| iosOut, 3, fun _ ↦ 7, pbackSize, pbackSize, pbackSize, pbase⟩

theorem sides_undisturbed_four :
    (runAll (call zeros) [.sputn [1, 2, 3, 4], .sbumpc, .sync] ⟨bothBuffer, {}⟩).2.desc.accepted
      = [1, 2, 3, 4] := by
  have hr : zeros.Reads := by
    have hread : (1 : ℤ) ≤ 4088 ∧ (4088 : ℤ) ≤ bufSize - pbackSize := by decide
    exact fun _ ↦ hread
  have hk : zeros.WritesAll := fun _ _ ↦ rfl
  have hnew : new 0 (fun _ ↦ 7) 3 (iosIn ||| iosOut) false = .ok bothBuffer := rfl
  have hput : ∀ p : ℕ, ¬ (pbackSize ≤ p ∧ p < pbackSize) := fun p h ↦ Nat.not_lt_of_le h.1 h.2
  have hputs : PutsApart zeros [1, 2, 3, 4] ⟨bothBuffer, {}⟩ :=
    ⟨hput 0, hput 1, hput 2, hput 3, trivial⟩
  have hrefill : RefillApart (after (call zeros (.sputn [1, 2, 3, 4])) ⟨bothBuffer, {}⟩) :=
    fun _ ↦ show 4 + min (pbackSize - pbackSize) pbackSize ≤ pbackSize by decide
  have hapart : RunApart zeros [.sputn [1, 2, 3, 4], .sbumpc, .sync] ⟨bothBuffer, {}⟩ :=
    ⟨hputs, hrefill, trivial, trivial⟩
  exact (sides_undisturbed hr hk (by decide) hnew hapart).2.2.2 rfl

/-- Five characters are put, and then one is read: the refill fills the cell of the fifth pending
character. Or one is looked at first: the fifth put fills the cell it will be read from. -/
theorem sides_disturb_each_other :
    (∀ i, zeros.readResult i = bufSize - pbackSize) ∧ zeros.WritesAll ∧
      new 0 (fun _ ↦ 7) 3 (iosIn ||| iosOut) false = .ok bothBuffer ∧
      (runAll (call zeros) [.sputn [1, 2, 3, 4, 5], .sgetc, .sync] ⟨bothBuffer, {}⟩).2.desc.accepted
        = [1, 2, 3, 4, 0] ∧
      [.sputn [1, 2, 3, 4, 5], .sgetc, .sync].flatMap Op.puts = [1, 2, 3, 4, 5] ∧
      (runAll (call zeros) [.sgetc, .sputn [1, 2, 3, 4, 5], .sbumpc] ⟨bothBuffer, {}⟩).1
        = [.ok (.char (some 0)), .ok (.count 5), .ok (.char (some 5))] :=
  ⟨fun _ ↦ rfl, fun _ _ ↦ rfl, rfl, rfl, rfl, rfl⟩

end Prebuffer

end CppRepo
