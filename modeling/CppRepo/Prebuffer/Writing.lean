import CppRepo.Prebuffer.Prebuffer

/-!
# What becomes of the characters that are put

`flushoutput` takes a write that did not fail for a complete one: it drops the whole put area,
however few of its characters the descriptor took. As long as no call reports a failure, the
characters put so far are therefore accounted for exactly when each write that did not fail was
complete. `Tallies` says this about a state in a form that every step keeps: after complete writes
the accepted characters followed by the pending ones are those that were put, and after an
incomplete write there are too few of them, for good.
-/

namespace CppRepo

variable {k : Kernel} {s t : PrebufferState} {bytes : Bytes} {c : UInt8}

/-- What POSIX allows a write to return: an error, or a number of bytes that is positive if any were
asked for and at most that number. -/
def Kernel.WritesPosix (k : Kernel) : Prop :=
  ∀ i n, k.writeResult i n = -1 ∨
    0 ≤ k.writeResult i n ∧ k.writeResult i n ≤ n ∧ (0 < n → 1 ≤ k.writeResult i n)

/-- Each write so far failed or took all its bytes. -/
def PrebufferState.Complete (s : PrebufferState) : Prop :=
  ∀ w ∈ s.desc.writes, w.2 = -1 ∨ w.2 = w.1

/-- The bytes that were put are accounted for, or too few are left after an incomplete write. -/
structure Tallies (s : PrebufferState) (bytes : Bytes) : Prop where
  conserved : s.Complete → s.desc.accepted ++ s.pending = bytes
  lost : ¬ s.Complete → s.desc.accepted.length + s.buf.pptr < bytes.length

namespace PrebufferState

@[simp] theorem length_pending : s.pending.length = s.buf.pptr := by
  rw [pending, List.length_map, List.length_range]

/-- A character has been put at the end of the put area. -/
def stored (c : UInt8) (s : PrebufferState) : PrebufferState :=
  (s.mapBuf (·.setCell s.buf.pptr c)).mapBuf Prebuffer.pbump

/-- The first `num` characters have been given to a write, and the put area is emptied. -/
def dropped (k : Kernel) (s : PrebufferState) : PrebufferState :=
  (s.sent k s.buf.pptr).mapBuf (Prebuffer.pback s.buf.pptr)

theorem pending_stored : (s.stored c).pending = s.pending ++ [c] := by
  have hold : ∀ i ∈ List.range s.buf.pptr,
      Function.update s.buf.buffer s.buf.pptr c i = s.buf.buffer i := fun i hi ↦
    Function.update_of_ne (List.mem_range.mp hi).ne _ _
  have hpending : (s.stored c).pending
      = (List.range (s.buf.pptr + 1)).map (Function.update s.buf.buffer s.buf.pptr c) := rfl
  rw [hpending, List.range_succ, List.map_append, List.map_congr_left hold, List.map_singleton,
    Function.update_self, pending]

@[simp] theorem pptr_dropped : (s.dropped k).buf.pptr = 0 := Nat.sub_self _

theorem pending_dropped : (s.dropped k).pending = [] := by
  rw [pending, pptr_dropped]
  rfl

private theorem complete_sent_iff {num : ℕ} : (s.sent k num).Complete ↔ s.Complete ∧
    (k.writeResult s.desc.writes.length num = -1 ∨
      k.writeResult s.desc.writes.length num = num) := by
  rw [Complete, Complete, sent, List.forall_mem_append, List.forall_mem_singleton]

end PrebufferState

open PrebufferState (complete_sent_iff)

namespace Tallies

theorem length_le (ht : Tallies s bytes) :
    s.desc.accepted.length + s.buf.pptr ≤ bytes.length := by
  by_cases hs : s.Complete
  · rw [← ht.conserved hs, List.length_append, PrebufferState.length_pending]
  · exact (ht.lost hs).le

private theorem conserved_iff (ht : Tallies s bytes) :
    s.desc.accepted ++ s.pending = bytes ↔ s.Complete := by
  refine ⟨fun heq ↦ ?_, ht.conserved⟩
  by_contra hs
  have hlost := ht.lost hs
  rw [← heq, List.length_append, PrebufferState.length_pending] at hlost
  exact absurd hlost (lt_irrefl _)

/-- One more character in the put area. -/
theorem stored (ht : Tallies s bytes) : Tallies (s.stored c) (bytes ++ [c]) := by
  refine ⟨fun hs ↦ ?_, fun hs ↦ ?_⟩
  · rw [PrebufferState.pending_stored, ← List.append_assoc]
    exact congrArg (· ++ [c]) (ht.conserved hs)
  · rw [List.length_append, List.length_singleton]
    exact Nat.succ_lt_succ (ht.lost hs)

private theorem sent_failed {num : ℕ} (ht : Tallies s bytes)
    (hr : k.writeResult s.desc.writes.length num = -1) : Tallies (s.sent k num) bytes := by
  have haccepted : (s.sent k num).desc.accepted = s.desc.accepted := by
    simp only [PrebufferState.sent, hr]
    exact List.append_nil _
  refine ⟨fun hs ↦ ?_, fun hs ↦ ?_⟩
  · rw [haccepted]
    exact ht.conserved (complete_sent_iff.mp hs).1
  · rw [haccepted]
    exact ht.lost fun hcomplete ↦ hs (complete_sent_iff.mpr ⟨hcomplete, .inl hr⟩)

/-- A write that did not fail, after which the put area is empty whatever the write took. -/
theorem dropped (hk : k.WritesPosix) (ht : Tallies s bytes)
    (hr : k.writeResult s.desc.writes.length s.buf.pptr ≠ -1) : Tallies (s.dropped k) bytes := by
  obtain ⟨hpos, hle, -⟩ := (hk s.desc.writes.length s.buf.pptr).resolve_left hr
  set r := k.writeResult s.desc.writes.length s.buf.pptr with hrdef
  have haccepted : (s.dropped k).desc.accepted
      = s.desc.accepted ++ (List.range r.toNat).map s.buf.buffer := rfl
  have hcomplete : (s.dropped k).Complete ↔ s.Complete ∧ r = s.buf.pptr := by
    have hiff : (s.dropped k).Complete ↔ s.Complete ∧ (r = -1 ∨ r = s.buf.pptr) :=
      complete_sent_iff
    rw [hiff, or_iff_right hr]
  refine ⟨fun hs ↦ ?_, fun hs ↦ ?_⟩
  · obtain ⟨hs, hall⟩ := hcomplete.mp hs
    rw [haccepted, PrebufferState.pending_dropped, List.append_nil, hall, Int.toNat_natCast]
    exact ht.conserved hs
  · rw [haccepted, List.length_append, List.length_map, List.length_range,
      PrebufferState.pptr_dropped]
    by_cases hall : r = s.buf.pptr
    · have hlost := ht.lost fun hs' ↦ hs (hcomplete.mpr ⟨hs', hall⟩)
      omega
    · have hlength := ht.length_le
      omega

end Tallies

/-! ## One call

A call of the put side stores characters and flushes. Each of the two keeps the account: a character
that is stored is one more that was put, and a flush that does not fail has dropped what it has not
written. -/

namespace Prebuffer

theorem ensures_putChar {Q : Unit → PrebufferState → Prop}
    {E : Fault FileError → PrebufferState → Prop}
    (h : s.buf.pptr < bufSize) : Ensures (putChar c) s Q E ↔ Q ⟨⟩ (s.stored c) := by
  rw [putChar, ensures_bind, ensures_get, ensures_bind, ensures_store h, ensures_modify]
  rfl

theorem ensures_flushoutput_closed {Q : Option ℕ → PrebufferState → Prop}
    {E : Fault FileError → PrebufferState → Prop} (h : (!s.buf.hasOut || !s.buf.isOpen) = true) :
    Ensures (flushoutput k) s Q E ↔ Q none s := by
  rw [flushoutput, ensures_bind, ensures_get, if_pos h, ensures_pure]

theorem ensures_flushoutput_open {Q : Option ℕ → PrebufferState → Prop}
    {E : Fault FileError → PrebufferState → Prop} (h : ¬ (!s.buf.hasOut || !s.buf.isOpen) = true) :
    Ensures (flushoutput k) s Q E ↔
      if k.writeResult s.desc.writes.length s.buf.pptr = -1 then Q none (s.sent k s.buf.pptr)
      else Q (some s.buf.pptr) (s.dropped k) := by
  have hnum : s.buf.pptr - pbase = s.buf.pptr := Nat.sub_zero _
  rw [flushoutput, ensures_bind, ensures_get, if_neg h, hnum, ensures_bind, ensures_sysWrite]
  by_cases hr : k.writeResult s.desc.writes.length s.buf.pptr = -1
  · rw [if_pos hr, if_pos hr, ensures_pure]
  · rw [if_neg hr, if_neg hr, ensures_bind, ensures_modify, ensures_pure]
    rfl

theorem flushoutput_spec (hk : k.WritesPosix) (ht : Tallies s bytes) :
    Ensures (flushoutput k) s
      (fun r t ↦ Tallies t bytes ∧ t.buf.pptr = if r = none then s.buf.pptr else 0)
      fun _ _ ↦ False := by
  by_cases hopen : (!s.buf.hasOut || !s.buf.isOpen) = true
  · rw [ensures_flushoutput_closed hopen]
    exact ⟨ht, rfl⟩
  · rw [ensures_flushoutput_open hopen]
    by_cases hr : k.writeResult s.desc.writes.length s.buf.pptr = -1
    · rw [if_pos hr]
      exact ⟨ht.sent_failed hr, rfl⟩
    · rw [if_neg hr]
      exact ⟨ht.dropped hk hr, PrebufferState.pptr_dropped⟩

theorem sputc_spec (hk : k.WritesPosix) (ht : Tallies s bytes) (hp : s.buf.pptr ≤ epptr) :
    Ensures (sputc k c) s
      (fun r t ↦ r ≠ none → Tallies t (bytes ++ [c]) ∧ t.buf.pptr ≤ epptr) fun _ _ ↦ False := by
  rw [sputc, ensures_bind, ensures_get]
  by_cases hroom : s.buf.pptr < epptr
  · rw [if_pos hroom, ensures_bind, ensures_putChar (hroom.trans (by decide)), ensures_pure]
    exact fun _ ↦ ⟨ht.stored, hroom⟩
  · rw [if_neg hroom, overflow, ensures_bind, ensures_get]
    by_cases hopen : (!s.buf.hasOut || !s.buf.isOpen) = true
    · rw [if_pos hopen]
      exact fun h ↦ absurd rfl h
    · have hlast : s.buf.pptr < bufSize := hp.trans_lt (by decide)
      rw [if_neg hopen, ensures_bind, ensures_putChar hlast, ensures_bind]
      refine (flushoutput_spec hk ht.stored).mono ?_ fun _ _ ↦ id
      rintro (- | num) t ⟨ht', hpptr⟩
      · exact fun h ↦ absurd rfl h
      · rw [if_neg (by simp)] at hpptr
        exact fun _ ↦ ⟨ht', hpptr ▸ Nat.zero_le _⟩

theorem sputn_spec (hk : k.WritesPosix) (ht : Tallies s bytes) (hp : s.buf.pptr ≤ epptr)
    (cs : Bytes) :
    Ensures (sputn k cs) s
      (fun n t ↦ n = cs.length → Tallies t (bytes ++ cs) ∧ t.buf.pptr ≤ epptr)
      fun _ _ ↦ False := by
  induction cs generalizing s bytes with
  | nil =>
    rw [sputn, ensures_pure, List.append_nil]
    exact fun _ ↦ ⟨ht, hp⟩
  | cons c cs ih =>
    rw [sputn, ensures_bind]
    refine (sputc_spec hk ht hp).mono ?_ fun _ _ ↦ id
    rintro (- | c') t hput
    · exact fun h ↦ absurd h.symm (Nat.succ_ne_zero _)
    · obtain ⟨ht', hp'⟩ := hput (by simp)
      rw [ensures_bind]
      refine (ih ht' hp').mono (fun n u hrest ↦ ?_) fun _ _ ↦ id
      rw [ensures_pure, List.length_cons, Nat.add_comm 1 n, Nat.succ_inj]
      rwa [List.append_assoc] at hrest

theorem sync_spec (hk : k.WritesPosix) (ht : Tallies s bytes) (hp : s.buf.pptr ≤ epptr) :
    Ensures (sync k) s
      (fun r t ↦ Tallies t bytes ∧ t.buf.pptr ≤ epptr ∧ (r = 0 → t.buf.pptr = 0))
      fun _ _ ↦ False := by
  rw [sync, ensures_bind]
  refine (flushoutput_spec hk ht).mono ?_ fun _ _ ↦ id
  rintro (- | num) t ⟨ht', hpptr⟩
  · rw [if_pos rfl] at hpptr
    exact ⟨ht', hpptr ▸ hp, fun h ↦ absurd h (by decide)⟩
  · rw [if_neg (by simp)] at hpptr
    exact ⟨ht', hpptr ▸ Nat.zero_le _, fun _ ↦ hpptr⟩

theorem close_spec (hk : k.WritesPosix) (ht : Tallies s bytes) (hp : s.buf.pptr ≤ epptr) :
    Ensures (close k) s (fun _ t ↦ Tallies t bytes ∧ t.buf.pptr ≤ epptr) fun _ _ ↦ False := by
  rw [close, ensures_bind, ensures_get]
  by_cases hopen : s.buf.isOpen = true
  · rw [if_pos hopen, ensures_bind]
    refine (sync_spec hk ht hp).mono ?_ fun _ _ ↦ id
    rintro r t ⟨ht', hp', -⟩
    rw [ensures_modify]
    exact ⟨⟨ht'.conserved, ht'.lost⟩, hp'⟩
  · rw [if_neg hopen]
    exact ⟨ht, hp⟩

/-! ## Runs

A run is quiet if no call of it has reported a failure. In such a run all characters of all calls
were put, and the account is about these. -/

/-- The call is one of the put side. -/
def Op.IsPut : Op → Prop
  | .sputc _ => True
  | .sputn _ => True
  | .sync => True
  | .close => True
  | .sgetc => False
  | .sbumpc => False
  | .sungetc => False

/-- What a call returns when it has failed; `close` returns nothing. -/
def Op.Failed : Op → Reply → Prop
  | .sputc _, r => r = .char none
  | .sputn cs, r => r ≠ .count cs.length
  | .sync, r => r ≠ .status 0
  | .close, _ => False
  | .sgetc, r => r = .char none
  | .sbumpc, r => r = .char none
  | .sungetc, r => r = .char none

/-- No call of the run has reported a failure. -/
def Quiet (ops : List Op) (results : List (Except (Fault FileError) Reply)) : Prop :=
  List.Forall₂ (fun op result ↦ ∀ r, result = .ok r → ¬ op.Failed r) ops results

theorem put_spec (hk : k.WritesPosix) (ht : Tallies s bytes) (hp : s.buf.pptr ≤ epptr)
    {op : Op} (hop : op.IsPut) :
    Ensures (call k op) s
      (fun r t ↦ ¬ op.Failed r → Tallies t (bytes ++ op.puts) ∧ t.buf.pptr ≤ epptr ∧
        (op = .sync → t.buf.pptr = 0))
      fun _ _ ↦ False := by
  match op, hop with
  | .sputc c, _ =>
    rw [call, ensures_map]
    refine (sputc_spec hk ht hp).mono (fun r t hput hr ↦ ?_) fun _ _ ↦ id
    obtain ⟨ht', hp'⟩ := hput fun heq ↦ hr (congrArg Reply.char heq)
    exact ⟨ht', hp', fun h ↦ Op.noConfusion h⟩
  | .sputn cs, _ =>
    rw [call, ensures_map]
    refine (sputn_spec hk ht hp cs).mono (fun n t hput hn ↦ ?_) fun _ _ ↦ id
    obtain ⟨ht', hp'⟩ := hput (by simpa [Op.Failed] using hn)
    exact ⟨ht', hp', fun h ↦ Op.noConfusion h⟩
  | .sync, _ =>
    rw [call, ensures_map]
    refine (sync_spec hk ht hp).mono ?_ fun _ _ ↦ id
    rintro r t ⟨ht', hp', hzero⟩ hr
    rw [Op.puts, List.append_nil]
    exact ⟨ht', hp', fun _ ↦ hzero (by simpa [Op.Failed] using hr)⟩
  | .close, _ =>
    rw [call, ensures_map]
    refine (close_spec hk ht hp).mono ?_ fun _ _ ↦ id
    rintro - t ⟨ht', hp'⟩ -
    rw [Op.puts, List.append_nil]
    exact ⟨ht', hp', fun h ↦ Op.noConfusion h⟩

private theorem runAll_tallies (hk : k.WritesPosix) (ht : Tallies s bytes) (hp : s.buf.pptr ≤ epptr)
    {ops : List Op} (hops : ∀ op ∈ ops, op.IsPut) (hquiet : Quiet ops (runAll (call k) ops s).1) :
    AllReturn (runAll (call k) ops s) ∧
      Tallies (runAll (call k) ops s).2 (bytes ++ ops.flatMap Op.puts) ∧
      (ops.getLast? = some .sync → (runAll (call k) ops s).2.buf.pptr = 0) := by
  induction ops generalizing s bytes with
  | nil =>
    refine ⟨by rintro x ⟨⟩, ?_, fun h ↦ absurd h (by simp)⟩
    rwa [List.flatMap_nil, List.append_nil]
  | cons op ops ih =>
    obtain ⟨r, t, hok, hput⟩ := (put_spec hk ht hp (hops op List.mem_cons_self)).exists_ok
    rw [runAll_cons_of_ok hok] at hquiet
    obtain ⟨hr, hrest⟩ := List.forall₂_cons.mp hquiet
    obtain ⟨ht', hp', hsync⟩ := hput (hr r rfl)
    obtain ⟨hret, htally, hlast⟩ :=
      ih ht' hp' (fun op' hop' ↦ hops op' (List.mem_cons_of_mem _ hop')) hrest
    refine ⟨allReturn_cons_iff.mpr ⟨r, t, hok, hret⟩, ?_, fun h ↦ ?_⟩
    · rw [runAll_cons_of_ok hok, List.flatMap_cons, ← List.append_assoc]
      exact htally
    · rw [runAll_cons_of_ok hok]
      rcases ops with - | ⟨op', ops⟩
      · exact hsync (by simpa using h)
      · exact hlast (by rwa [List.getLast?_cons_cons] at h)

theorem tallies_new {mode om : UInt32} {buffer : ℕ → UInt8} {fd : ℤ} {thr : Bool} {b : Prebuffer}
    (hnew : new mode buffer fd om thr = .ok b) : Tallies ⟨b, {}⟩ [] ∧ b.pptr = 0 := by
  by_cases h : thr ∧ ¬ 0 ≤ fd
  · rw [new, if_pos h] at hnew
    exact absurd hnew (by simp)
  · rw [new, if_neg h] at hnew
    obtain rfl := Except.ok.inj hnew
    refine ⟨⟨fun _ ↦ rfl, fun hs ↦ absurd ?_ hs⟩, rfl⟩
    rintro w ⟨⟩

/-- **The put side.** As long as no call has reported a failure, the accepted bytes followed by the
pending ones are those that were put, and after a `sync` all have been accepted, exactly when each
write that did not fail has taken all the bytes it was given. -/
theorem puts_conserved_iff {mode om : UInt32} {buffer : ℕ → UInt8} {fd : ℤ} {thr : Bool}
    {b : Prebuffer} (hk : k.WritesPosix) (hnew : new mode buffer fd om thr = .ok b) {ops : List Op}
    (hops : ∀ op ∈ ops, op.IsPut) (hquiet : Quiet ops (runAll (call k) ops ⟨b, {}⟩).1) :
    AllReturn (runAll (call k) ops ⟨b, {}⟩) ∧
      (((runAll (call k) ops ⟨b, {}⟩).2.desc.accepted ++ (runAll (call k) ops ⟨b, {}⟩).2.pending
            = ops.flatMap Op.puts ∧
          (ops.getLast? = some .sync →
            (runAll (call k) ops ⟨b, {}⟩).2.desc.accepted = ops.flatMap Op.puts))
        ↔ (runAll (call k) ops ⟨b, {}⟩).2.Complete) := by
  obtain ⟨ht, hp⟩ := tallies_new hnew
  obtain ⟨hret, htally, hlast⟩ :=
    runAll_tallies hk ht (show b.pptr ≤ epptr from hp ▸ Nat.zero_le _) hops hquiet
  rw [List.nil_append] at htally
  refine ⟨hret, fun hall ↦ htally.conserved_iff.mp hall.1, fun hs ↦ ?_⟩
  have hall := htally.conserved_iff.mpr hs
  refine ⟨hall, fun hsync ↦ ?_⟩
  rw [← hall, PrebufferState.pending, hlast hsync]
  exact (List.append_nil _).symm

/-- A descriptor that takes all it is given. -/
private def wholeWrites : Kernel := ⟨fun _ ↦ 0, fun _ ↦ 0, fun _ n ↦ n⟩

/-- A new buffer for output. -/
private def outBuffer : Prebuffer :=
  ⟨iosOut, 3, fun _ ↦ 0, pbackSize, pbackSize, pbackSize, pbase⟩

theorem puts_conserved_iff_whole :
    ∃ b, new 0 (fun _ ↦ 0) 3 iosOut false = .ok b ∧
      (runAll (call wholeWrites) [.sputc 97, .sync] ⟨b, {}⟩).2.desc.accepted = [97] := by
  have hk : wholeWrites.WritesPosix := fun i n ↦
    .inr ⟨Int.natCast_nonneg n, le_rfl, fun hn ↦ Int.natCast_pos.mpr hn⟩
  have hops : ∀ op ∈ [Op.sputc 97, .sync], op.IsPut := by simp [Op.IsPut]
  have hnew : new 0 (fun _ ↦ 0) 3 iosOut false = .ok outBuffer := rfl
  have hquiet : Quiet [.sputc 97, .sync]
      (runAll (call wholeWrites) [.sputc 97, .sync] ⟨outBuffer, {}⟩).1 := by
    refine .cons ?_ (.cons ?_ .nil)
    · rintro r heq rfl
      exact absurd heq (by decide)
    · rintro r heq hr
      exact hr (Except.ok.inj heq).symm
  refine ⟨outBuffer, hnew, ((puts_conserved_iff hk hnew hops hquiet).2.mpr fun w hw ↦ ?_).2 rfl⟩
  rw [List.mem_singleton.mp hw]
  exact .inr rfl

/-- A descriptor that takes one byte of each write. -/
private def oneByteWrites : Kernel := ⟨fun _ ↦ 0, fun _ ↦ 0, fun _ n ↦ (min n 1 : ℕ)⟩

/-- Two characters are put and synced. The write takes the first, the second is gone, and no call
has reported anything. -/
theorem sync_loses_characters :
    oneByteWrites.WritesPosix ∧ ∃ b, new 0 (fun _ ↦ 0) 3 iosOut false = .ok b ∧
      (runAll (call oneByteWrites) [.sputn [97, 98], .sync] ⟨b, {}⟩).1
        = [.ok (.count 2), .ok (.status 0)] ∧
      (runAll (call oneByteWrites) [.sputn [97, 98], .sync] ⟨b, {}⟩).2.desc.accepted
          ++ (runAll (call oneByteWrites) [.sputn [97, 98], .sync] ⟨b, {}⟩).2.pending = [97] ∧
      [.sputn [97, 98], .sync].flatMap Op.puts = [97, 98] := by
  refine ⟨fun i n ↦ .inr ⟨?_, ?_, fun hn ↦ ?_⟩, outBuffer, rfl, rfl, rfl, rfl⟩
  · exact Int.natCast_nonneg (min n 1)
  · exact Int.ofNat_le.mpr (min_le_left n 1)
  · exact Int.ofNat_le.mpr (le_min hn le_rfl)

end Prebuffer

end CppRepo
