import CppRepo.Http.HeadOrder

/-!
# Heads made in any order

A script makes a head with one status and, before and after it in any order, headers and the other
calls of a head. Over the stack of a connection the client below receives the `prelude` of the
script and then its `ending`, or the first few calls of it when `complete_header` throws; both are
read off the head the stack refines. Two things follow.

The status comes before every header, and every header comes once and in order, exactly when no
chunked body is announced before the status. The length that was announced is received once, after
the status and before the end, whether it was announced early or late, unless the status has none.

## From the script to the log

What is received is the prelude and a part of the ending that is not empty, and `log_run` is the
only statement here about runs. All others are about two lists of calls that are computed from the
script: which calls are in them, in which order, and which headers and lengths.
-/

namespace CppRepo

variable {δ : Type}

/-! ## Scripts

The status is the one call that changes what the others mean, so a script is cut there. The calls
before it are emitted under no status, the calls after it under the one that was sent, and whatever
waited comes with the end of the head. -/

/-- A sequence of calls that makes a head: one status, and before and after it headers, 100
Continues and flushes, and at most one of the two calls that say where the body ends. The end of the
head follows. -/
structure HeadScript where
  before : List Call
  status : Int32
  statusName : Bytes
  after : List Call
  kinds : ∀ c ∈ before ++ after, c.inHead = true ∧ c.isStatus = false
  one_framing : ((before ++ after).filter Call.isFraming).length ≤ 1

namespace HeadScript

/-- The calls of the script up to the end of the head. -/
def opening (S : HeadScript) : List Call := S.before ++ .sendStatus S.status S.statusName :: S.after

/-- The calls of the script. -/
def calls (S : HeadScript) : List Call := S.opening ++ [.completeHeader]

/-- What the client below receives before the end of the head. -/
def prelude (S : HeadScript) : List Call :=
  S.before.flatMap (Head.emits {}) ++ .sendStatus S.status S.statusName ::
    S.after.flatMap (Head.emits { status := some S.status })

/-- The length that came before the status, if it is stated. -/
def waitingLength (S : HeadScript) : List Call :=
  (((S.before.filterMap Call.contentLength?).getLast?).map (Head.lengthCalls S.status)).getD []

/-- The headers of the script. -/
def waitingHeaders (S : HeadScript) : List Call :=
  ((S.before ++ S.after).filterMap Call.header?).map fun kv ↦ .sendHeader kv.1 kv.2

/-- What the end of the head adds. -/
def ending (S : HeadScript) : List Call := S.waitingLength ++ S.waitingHeaders ++ [.completeHeader]

private theorem isStatus_before (S : HeadScript) : ∀ c ∈ S.before, c.isStatus = false :=
  fun c hc ↦ (S.kinds c (List.mem_append_left _ hc)).2

private theorem isStatus_after (S : HeadScript) : ∀ c ∈ S.after, c.isStatus = false :=
  fun c hc ↦ (S.kinds c (List.mem_append_right _ hc)).2

private theorem after_opening (S : HeadScript) : ({} : Head).emitted S.opening = S.prelude ∧
    (({} : Head).after S.opening).status = some S.status ∧
      (({} : Head).after S.opening).completion S.status = S.ending := by
  obtain ⟨hnone, hheaders, hlen⟩ := Head.after_of_isStatus S.isStatus_before {}
  rw [if_pos rfl] at hlen
  -- the status is sent, and nothing else changes
  have hseen : (({} : Head).after S.before).next (.sendStatus S.status S.statusName)
      = { ({} : Head).after S.before with status := some S.status } := rfl
  obtain ⟨hstatus, hheaders', hlen'⟩ := Head.after_of_isStatus S.isStatus_after
    { ({} : Head).after S.before with status := some S.status }
  rw [if_neg (by simp)] at hlen'
  have hafter : ({} : Head).after S.opening
      = Head.after { ({} : Head).after S.before with status := some S.status } S.after := by
    rw [opening, Head.after_append, ← hseen]
    rfl
  refine ⟨?_, by rw [hafter, hstatus], ?_⟩
  · rw [opening, Head.emitted_append, Head.emitted, hseen,
      Head.emitted_of_isStatus S.isStatus_before, Head.emitted_of_isStatus S.isStatus_after,
      prelude]
    rfl
  · rw [Head.completion, hafter, hheaders', hlen', hlen, hheaders, ending, waitingLength,
      waitingHeaders, List.nil_append, List.filterMap_append, Option.or_none]

private theorem inHead_opening (S : HeadScript) : ∀ c ∈ S.opening, c.inHead = true := by
  intro c hc
  rcases List.mem_append.mp hc with hc | hc
  · exact (S.kinds c (List.mem_append_left _ hc)).1
  · rcases List.mem_cons.mp hc with rfl | hc
    · rfl
    · exact (S.kinds c (List.mem_append_right _ hc)).1

/-- The run of a script on a new stack over `d`, in the state `s`. -/
def run (S : HeadScript) (d : RestfulClient δ) (s : δ) :
    List (Except (Fault Exception) UInt64) × HeadStack δ :=
  runAll (headStackClient d).invoke S.calls ({}, {}, {}, [], s)

/-- **What the client below receives**, for every script and whatever throws: the prelude, and of
the ending a part that is not empty, which is all of it if no call threw. What the calls return is
bounded by what they made the client below receive. -/
theorem log_run {d : RestfulClient δ} {b : Call → ℕ} (hd : Bounded d b) (S : HeadScript) (s : δ) :
    ∃ made, made ≠ [] ∧ made <+: S.ending ∧ (S.run d s).2.log = S.prelude ++ made ∧
      (AllReturn (S.run d s) → made = S.ending) ∧
      ∀ x ∈ (S.run d s).1, ∀ n, x = .ok n →
        (∃ h : Head, ∃ c ∈ S.opening, n.toNat ≤ allowance b (h.emits c)) ∨
          n.toNat ≤ allowance b S.ending := by
  obtain ⟨hprelude, hstatus, hending⟩ := S.after_opening
  obtain ⟨hrefines, hlog, hvalues⟩ := runAll_headStack hd S.inHead_opening
    (t := (({}, {}, {}, [], s) : HeadStack δ)) (h := {}) ⟨rfl, rfl, rfl, rfl⟩
  rw [hprelude] at hlog
  have hend := ensures_headStack_complete hd hrefines hstatus
  rw [hending, hlog] at hend
  rw [run, calls, runAll_append]
  set opened := runAll (headStackClient d).invoke S.opening ({}, {}, {}, [], s)
  cases hx : (headStackClient d).invoke .completeHeader opened.2 with
  | ok n u =>
    obtain ⟨hu, hn⟩ := hend.of_ok hx
    rw [runAll_cons_of_ok hx]
    refine ⟨S.ending, ?_, List.prefix_rfl, hu, fun _ ↦ rfl, ?_⟩
    · rw [ending]
      simp
    · intro x hmem m hm
      rcases List.mem_append.mp hmem with hmem | hmem
      · exact .inl (hvalues x hmem m hm)
      · rw [List.mem_singleton.mp hmem] at hm
        cases hm
        exact .inr hn
  | error e u =>
    obtain ⟨made, hne, hmade, hu⟩ := hend.of_error hx
    rw [runAll_cons_of_error hx]
    refine ⟨made, hne, hmade, hu, fun hret ↦ ?_, ?_⟩
    · obtain ⟨a, ha⟩ := hret (.error e) (by simp)
      cases ha
    · intro x hmem m hm
      rcases List.mem_append.mp hmem with hmem | hmem
      · exact .inl (hvalues x hmem m hm)
      · rw [List.mem_singleton.mp hmem] at hm
        cases hm

/-! ### What is in the prelude and the ending

Each of the two lists has the header lines of the calls that made it. The announcement of a chunked
body is the one call that has a header line in the prelude; a script has at most one of them, for it
has at most one call that frames the body. -/

private theorem mem_emits {h : Head} {c e : Call} (hc : c.isStatus = false) (he : e ∈ h.emits c) :
    e.isStatus = false ∧ e ≠ .completeHeader ∧
      (e.header? ≠ none → c = .sendChunkedTransferEncoding) ∧
      (e.contentLength? ≠ none → h.status ≠ none ∧ c = e) := by
  cases c with
  | sendStatus status statusName => cases hc
  | sendContentLength len =>
    cases hstatus : h.status with
    | none => rw [Head.emits, hstatus] at he; cases he
    | some status =>
      rw [Head.emits, hstatus, Option.map_some, Option.getD_some, Head.lengthCalls] at he
      split_ifs at he
      · cases he
      · rw [List.mem_singleton.mp he]
        exact ⟨rfl, by simp, fun hne ↦ absurd rfl hne, fun _ ↦ ⟨by simp, rfl⟩⟩
  | sendChunkedTransferEncoding =>
    rw [List.mem_singleton.mp he]
    exact ⟨rfl, by simp [Head.transferEncoding], fun _ ↦ rfl, fun hne ↦ absurd rfl hne⟩
  | send100Continue | flush =>
    rw [List.mem_singleton.mp he]
    exact ⟨rfl, by simp, fun hne ↦ absurd rfl hne, fun hne ↦ absurd rfl hne⟩
  | _ => cases he

private theorem filterMap_header_emits {h : Head} {cs : List Call}
    (hcs : ∀ c ∈ cs, c.isStatus = false) : (cs.flatMap h.emits).filterMap Call.header?
      = (cs.filter (· = .sendChunkedTransferEncoding)).map
          fun _ ↦ (ascii "Transfer-Encoding", ascii "chunked") := by
  induction cs with
  | nil => rfl
  | cons c cs ih =>
    rw [List.flatMap_cons, List.filterMap_append,
      ih fun c' hc' ↦ hcs c' (List.mem_cons_of_mem c hc')]
    by_cases hc : c = .sendChunkedTransferEncoding
    · subst hc
      rw [List.filter_cons_of_pos (by simp), List.map_cons]
      rfl
    · have hnone : (h.emits c).filterMap Call.header? = [] := by
        rw [List.filterMap_eq_nil_iff]
        intro e he
        by_contra hne
        exact hc ((mem_emits (hcs c List.mem_cons_self) he).2.2.1 hne)
      rw [hnone, List.nil_append, List.filter_cons_of_neg (by simpa using hc)]

private theorem completeHeader_notMem_prelude (S : HeadScript) : .completeHeader ∉ S.prelude := by
  intro hmem
  rcases List.mem_append.mp hmem with hmem | hmem
  · obtain ⟨c, hc, he⟩ := List.mem_flatMap.mp hmem
    exact (mem_emits (S.isStatus_before c hc) he).2.1 rfl
  · rcases List.mem_cons.mp hmem with hmem | hmem
    · cases hmem
    · obtain ⟨c, hc, he⟩ := List.mem_flatMap.mp hmem
      exact (mem_emits (S.isStatus_after c hc) he).2.1 rfl

private theorem mem_waitingLength {S : HeadScript} {c : Call} (hc : c ∈ S.waitingLength) :
    ∃ len, c = .sendContentLength len := by
  rw [waitingLength] at hc
  cases hlen : (S.before.filterMap Call.contentLength?).getLast? with
  | none => rw [hlen] at hc; cases hc
  | some len =>
    rw [hlen, Option.map_some, Option.getD_some, Head.lengthCalls] at hc
    split_ifs at hc
    · cases hc
    · exact ⟨len, List.mem_singleton.mp hc⟩

private theorem mem_waitingHeaders {S : HeadScript} {c : Call} (hc : c ∈ S.waitingHeaders) :
    ∃ name value, c = .sendHeader name value := by
  obtain ⟨kv, _, rfl⟩ := List.mem_map.mp hc
  exact ⟨kv.1, kv.2, rfl⟩

private theorem completeHeader_notMem_waiting (S : HeadScript) :
    .completeHeader ∉ S.waitingLength ++ S.waitingHeaders := by
  intro hmem
  rcases List.mem_append.mp hmem with hmem | hmem
  · obtain ⟨len, hlen⟩ := mem_waitingLength hmem
    cases hlen
  · obtain ⟨name, value, hheader⟩ := mem_waitingHeaders hmem
    cases hheader

private theorem filterMap_header_ending (S : HeadScript) :
    S.ending.filterMap Call.header? = (S.before ++ S.after).filterMap Call.header? := by
  have hnone : S.waitingLength.filterMap Call.header? = [] := by
    rw [List.filterMap_eq_nil_iff]
    intro c hc
    obtain ⟨len, rfl⟩ := mem_waitingLength hc
    rfl
  have hsome : S.waitingHeaders.filterMap Call.header?
      = (S.before ++ S.after).filterMap Call.header? := by
    rw [waitingHeaders, List.filterMap_map]
    exact List.filterMap_some
  rw [ending, List.filterMap_append, List.filterMap_append, hnone, hsome, List.nil_append]
  exact List.append_nil _

private theorem filter_chunked (S : HeadScript) :
    (S.before ++ S.after).filter (· = .sendChunkedTransferEncoding)
      = if .sendChunkedTransferEncoding ∈ S.before ++ S.after then
        [.sendChunkedTransferEncoding] else [] := by
  have hle : (S.before ++ S.after).count .sendChunkedTransferEncoding ≤ 1 := by
    rw [List.count_eq_length_filter]
    refine le_trans (List.Sublist.length_le ?_) S.one_framing
    refine List.monotone_filter_right _ fun c hc ↦ ?_
    rw [beq_iff_eq] at hc
    rw [hc]
    rfl
  rw [List.filter_eq]
  split_ifs with hmem
  · rw [le_antisymm hle (List.count_pos_iff.mpr hmem)]
    rfl
  · rw [List.count_eq_zero.mpr hmem]
    rfl

end HeadScript

/-! ## The status first, every header once

The order is broken in one way only: the announcement of a chunked body, made before the status,
puts its header line before it. In all other scripts a call that is received before the status was
emitted before it, and no such call has a header line. -/

/-- The calls of a client that put a header on the wire. -/
def Call.producesHeader : Call → Bool
  | .sendHeader _ _ | .sendContentLength _ => true
  | _ => false

/-- The headers a client is to receive for a script: the one that announces a chunked body, if it
was announced, and those of the script. -/
def HeadScript.headersDue (S : HeadScript) : List (Bytes × Bytes) :=
  (if .sendChunkedTransferEncoding ∈ S.before ++ S.after then
      [(ascii "Transfer-Encoding", ascii "chunked")] else [])
    ++ (S.before ++ S.after).filterMap Call.header?

/-- The calls `log` that a client received deliver the head of the script: the status comes before
any call that produces a header, the headers come once each and in order, and the end of the head
comes last. If every call returned, they are all there. -/
structure Delivered (S : HeadScript) (returned : Prop) (log : List Call) : Prop where
  status_first : ∀ l c r, log = l ++ c :: r → c.producesHeader = true →
    .sendStatus S.status S.statusName ∈ l
  headers : log.filterMap Call.header? <+: S.headersDue
  end_last : ∀ l r, log = l ++ .completeHeader :: r → r = []
  all : returned → log.filterMap Call.header? = S.headersDue ∧ .completeHeader ∈ log

namespace HeadScript

private theorem not_status_first_of_mem {S : HeadScript}
    (hmem : .sendChunkedTransferEncoding ∈ S.before)
    (made : List Call) : ¬∀ l c r, S.prelude ++ made = l ++ c :: r → c.producesHeader = true →
      .sendStatus S.status S.statusName ∈ l := by
  intro hfirst
  obtain ⟨p, q, hsplit⟩ := List.append_of_mem hmem
  have hlog : ∃ r, S.prelude ++ made
      = p.flatMap (Head.emits {}) ++ Head.transferEncoding :: r := by
    rw [prelude, hsplit, List.flatMap_append, List.flatMap_cons]
    simp only [List.append_assoc]
    exact ⟨_, rfl⟩
  obtain ⟨r, hr⟩ := hlog
  obtain ⟨c, hc, he⟩ := List.mem_flatMap.mp (hfirst _ _ r hr rfl)
  have hstatus := S.isStatus_before c (hsplit ▸ List.mem_append_left _ hc)
  cases (mem_emits hstatus he).1

private theorem filterMap_header_prelude (S : HeadScript) : S.prelude.filterMap Call.header?
    = if .sendChunkedTransferEncoding ∈ S.before ++ S.after then
        [(ascii "Transfer-Encoding", ascii "chunked")] else [] := by
  have hstatus : Call.header? (.sendStatus S.status S.statusName) = none := rfl
  rw [prelude, List.filterMap_append, List.filterMap_cons_none hstatus,
    filterMap_header_emits S.isStatus_before, filterMap_header_emits S.isStatus_after,
    ← List.map_append, ← List.filter_append, S.filter_chunked]
  split_ifs <;> rfl

private theorem status_mem {S : HeadScript} {made l r : List Call} {c : Call}
    (hlog : S.prelude ++ made = l ++ c :: r) (hbefore : c ∉ S.before.flatMap (Head.emits {}))
    (hstatus : c.isStatus = false) : .sendStatus S.status S.statusName ∈ l := by
  rw [prelude, List.append_assoc, List.cons_append] at hlog
  rcases split_trichotomy hlog with ⟨mid, hmid⟩ | ⟨_, rfl, _⟩ | ⟨mid, rfl, _⟩
  · exact absurd (hmid ▸ by simp) hbefore
  · cases hstatus
  · simp

private theorem end_last {S : HeadScript} {made l r : List Call} (hmade : made <+: S.ending)
    (hlog : S.prelude ++ made = l ++ .completeHeader :: r) : r = [] := by
  obtain ⟨rest, hrest⟩ := hmade
  have hsplit : (S.prelude ++ (S.waitingLength ++ S.waitingHeaders)) ++ .completeHeader :: []
      = l ++ .completeHeader :: (r ++ rest) := by
    rw [List.append_assoc, ← ending, ← hrest, ← List.append_assoc, hlog]
    simp
  rcases split_trichotomy hsplit with ⟨mid, hmid⟩ | ⟨_, _, hnil⟩ | ⟨mid, _, hmid⟩
  · have hin : .completeHeader ∈ S.prelude ++ (S.waitingLength ++ S.waitingHeaders) :=
      hmid ▸ by simp
    rcases List.mem_append.mp hin with hin | hin
    · exact absurd hin S.completeHeader_notMem_prelude
    · exact absurd hin S.completeHeader_notMem_waiting
  · exact (List.append_eq_nil_iff.mp hnil.symm).1
  · simp at hmid

private theorem delivered_of_notMem {S : HeadScript}
    (hmem : .sendChunkedTransferEncoding ∉ S.before)
    {made : List Call} (hmade : made <+: S.ending) {returned : Prop}
    (hall : returned → made = S.ending) : Delivered S returned (S.prelude ++ made) := by
  constructor
  · intro l c r hlog hheader
    refine status_mem hlog (fun hc ↦ ?_) (by cases c <;> first | rfl | cases hheader)
    obtain ⟨c', hc', he⟩ := List.mem_flatMap.mp hc
    obtain ⟨_, _, hchunked, hlength⟩ := mem_emits (S.isStatus_before c' hc') he
    cases c with
    | sendHeader name value => exact hmem (hchunked (by simp [Call.header?]) ▸ hc')
    | sendContentLength len => exact (hlength (by simp [Call.contentLength?])).1 rfl
    | _ => cases hheader
  · rw [List.filterMap_append, filterMap_header_prelude, headersDue, ← S.filterMap_header_ending]
    exact (List.prefix_append_right_inj _).mpr (hmade.filterMap _)
  · exact fun l r hlog ↦ end_last hmade hlog
  · intro hret
    rw [hall hret, List.filterMap_append, filterMap_header_prelude, S.filterMap_header_ending]
    exact ⟨rfl, by simp [ending]⟩

end HeadScript

/-- **A head is delivered exactly when no chunked body is announced before the status.** -/
theorem headScript_delivered_iff (S : HeadScript) (d : RestfulClient δ) (s : δ) :
    Delivered S (AllReturn (S.run d s)) (S.run d s).2.log
      ↔ .sendChunkedTransferEncoding ∉ S.before := by
  obtain ⟨made, _, hmade, hlog, hall, _⟩ := S.log_run (bounded_toNat d) s
  rw [hlog]
  refine ⟨fun h hmem ↦ ?_, fun hmem ↦ HeadScript.delivered_of_notMem hmem hmade hall⟩
  exact HeadScript.not_status_first_of_mem hmem made h.status_first

/-- The case of a chunked body announced first: its header is received before the status. -/
theorem headScript_chunked_first :
    let S : HeadScript :=
      ⟨[.sendChunkedTransferEncoding], 200, ascii "OK", [], by decide, by decide⟩
    ¬Delivered S (AllReturn (S.run StreamIo.client .bare)) (S.run StreamIo.client .bare).2.log := by
  intro S h
  obtain ⟨made, _, _, hlog, _⟩ := S.log_run (bounded_toNat StreamIo.client) .bare
  rw [hlog] at h
  exact HeadScript.not_status_first_of_mem (S := S) List.mem_cons_self made h.status_first

/-! ## The length once, and never too early

The length that was announced waits, or is received at once under a status that has one. In both
cases it is received once; that no result is the error value follows from the bounds on what each
call can return, which the error value exceeds. -/

/-- A script whose headers are in memory at one time, as they are while the stack holds them back.
-/
structure SizedHeadScript extends HeadScript where
  fits : (((before ++ after).filterMap Call.header?).map
    fun kv ↦ kv.1.length + kv.2.length + 4).sum < 2 ^ 63

namespace HeadScript

private theorem length_contentLengths_le (S : HeadScript) :
    ((S.before ++ S.after).filterMap Call.contentLength?).length ≤ 1 := by
  refine le_trans ?_ S.one_framing
  rw [List.length_filterMap_eq_countP, ← List.countP_eq_length_filter]
  refine List.countP_mono_left fun c _ hc ↦ ?_
  cases c <;> first | rfl | cases hc

private theorem filterMap_contentLength_emits {h : Head} {status : Int32}
    (hh : h.status = some status) {cs : List Call} (hcs : ∀ c ∈ cs, c.isStatus = false) :
    (cs.flatMap h.emits).filterMap Call.contentLength?
      = if status = 204 ∨ status = 304 then [] else cs.filterMap Call.contentLength? := by
  induction cs with
  | nil => split_ifs <;> rfl
  | cons c cs ih =>
    have hc : (h.emits c).filterMap Call.contentLength?
        = if status = 204 ∨ status = 304 then [] else [c].filterMap Call.contentLength? := by
      cases c with
      | sendStatus st name => cases hcs _ List.mem_cons_self
      | sendContentLength len =>
        rw [Head.emits, hh, Option.map_some, Option.getD_some, Head.lengthCalls]
        split_ifs <;> rfl
      | _ => split_ifs <;> rfl
    rw [List.flatMap_cons, List.filterMap_append, hc,
      ih fun c' hc' ↦ hcs c' (List.mem_cons_of_mem c hc')]
    split_ifs
    · rfl
    · rw [← List.filterMap_append, List.singleton_append]

private theorem filterMap_contentLength_made {S : HeadScript} {made : List Call} (hne : made ≠ [])
    (hmade : made <+: S.ending) : made.filterMap Call.contentLength?
      = if S.status = 204 ∨ S.status = 304 then []
        else ((S.before.filterMap Call.contentLength?).getLast?).toList := by
  have hrest : ∀ part : List Call, part <+: S.waitingHeaders ++ [.completeHeader] →
      part.filterMap Call.contentLength? = [] := by
    intro part hpart
    rw [List.filterMap_eq_nil_iff]
    intro c hc
    rcases List.mem_append.mp (hpart.subset hc) with hc | hc
    · obtain ⟨name, value, rfl⟩ := mem_waitingHeaders hc
      rfl
    · rw [List.mem_singleton.mp hc]
      rfl
  rw [ending, List.append_assoc, waitingLength] at hmade
  cases hlen : (S.before.filterMap Call.contentLength?).getLast? with
  | none =>
    rw [hlen] at hmade
    rw [hrest made hmade]
    split_ifs <;> rfl
  | some len =>
    rw [hlen, Option.map_some, Option.getD_some, Head.lengthCalls] at hmade
    split_ifs at hmade ⊢ with hno
    · exact hrest made hmade
    · -- the part is not empty, so it begins with the length
      obtain ⟨c, part, rfl⟩ := List.exists_cons_of_ne_nil hne
      obtain ⟨rfl, hpart⟩ := List.cons_prefix_cons.mp hmade
      rw [List.filterMap_cons_some
          (by rfl : Call.contentLength? (.sendContentLength len) = some len),
        hrest part hpart]
      rfl

private theorem filterMap_contentLength (S : HeadScript) {made : List Call} (hne : made ≠ [])
    (hmade : made <+: S.ending) : (S.prelude ++ made).filterMap Call.contentLength?
      = if S.status = 204 ∨ S.status = 304 then []
        else (S.before ++ S.after).filterMap Call.contentLength? := by
  have hbefore : (S.before.flatMap (Head.emits {})).filterMap Call.contentLength? = [] := by
    rw [List.filterMap_eq_nil_iff]
    intro e he
    obtain ⟨c, hc, he⟩ := List.mem_flatMap.mp he
    by_contra hsome
    exact ((mem_emits (S.isStatus_before c hc) he).2.2.2 hsome).1 rfl
  have hstatus : Call.contentLength? (.sendStatus S.status S.statusName) = none := rfl
  rw [prelude, List.filterMap_append, List.filterMap_append, List.filterMap_cons_none hstatus,
    hbefore, List.nil_append, filterMap_contentLength_emits rfl S.isStatus_after,
    filterMap_contentLength_made hne hmade]
  split_ifs
  · rfl
  · have hle := S.length_contentLengths_le
    rw [List.filterMap_append, List.length_append] at hle
    rw [List.filterMap_append]
    -- at most one of the two lists has an element
    rcases hcl : S.before.filterMap Call.contentLength? with _ | ⟨len, rest⟩
    · exact List.append_nil _
    · rw [hcl, List.length_cons] at hle
      have hrest : rest = [] := List.length_eq_zero_iff.mp (by omega)
      have hafter : S.after.filterMap Call.contentLength? = [] :=
        List.length_eq_zero_iff.mp (by omega)
      rw [hrest, hafter]
      rfl

private theorem place_of_contentLength {S : HeadScript} {made : List Call}
    (hmade : made <+: S.ending)
    {l r : List Call} {len : UInt64} (hlog : S.prelude ++ made = l ++ .sendContentLength len :: r) :
    .sendStatus S.status S.statusName ∈ l ∧ .completeHeader ∉ l := by
  refine ⟨status_mem hlog (fun hc ↦ ?_) rfl, fun hc ↦ ?_⟩
  · obtain ⟨c', hc', he⟩ := List.mem_flatMap.mp hc
    exact ((mem_emits (S.isStatus_before c' hc') he).2.2.2 (by simp [Call.contentLength?])).1 rfl
  · obtain ⟨l', l'', rfl⟩ := List.append_of_mem hc
    rw [List.append_assoc, List.cons_append] at hlog
    have hnil := end_last hmade hlog
    simp at hnil

private theorem allowance_lengthCalls_le (status : Int32) (len : UInt64) :
    allowance returnBound (Head.lengthCalls status len) ≤ 2 ^ 31 := by
  rw [Head.lengthCalls]
  split_ifs
  · exact Nat.zero_le _
  · rw [allowance_singleton, returnBound]

private theorem allowance_emits_le (h : Head) (c : Call) :
    allowance returnBound (h.emits c) ≤ 2 ^ 31 := by
  cases c with
  | sendContentLength len =>
    rw [Head.emits]
    cases h.status with
    | none => exact Nat.zero_le _
    | some status => exact allowance_lengthCalls_le status len
  | sendChunkedTransferEncoding =>
    have hname : (ascii "Transfer-Encoding").length = 17 := rfl
    have hvalue : (ascii "chunked").length = 7 := rfl
    rw [Head.emits, allowance_singleton, Head.transferEncoding, returnBound, hname, hvalue]
    norm_num
  | sendStatus | send100Continue | flush => rw [Head.emits, allowance_singleton, returnBound]
  | _ => exact Nat.zero_le _

end HeadScript

private theorem SizedHeadScript.allowance_ending_lt (S : SizedHeadScript) :
    allowance returnBound S.ending < 2 ^ 64 - 22 := by
  have hlen : allowance returnBound S.waitingLength ≤ 2 ^ 31 := by
    rw [HeadScript.waitingLength]
    cases (S.before.filterMap Call.contentLength?).getLast? with
    | none => exact Nat.zero_le _
    | some len => exact HeadScript.allowance_lengthCalls_le S.status len
  have hheaders : allowance returnBound S.waitingHeaders < 2 ^ 63 := by
    rw [allowance, HeadScript.waitingHeaders, List.map_map]
    exact S.fits
  have hend : returnBound .completeHeader = 2 ^ 31 := by rw [returnBound]
  rw [HeadScript.ending, allowance, List.map_append, List.map_append, List.sum_append,
    List.sum_append, ← allowance, ← allowance, ← allowance, allowance_singleton, hend]
  omega

/-- **A length is passed on exactly once, if at all, and never answered with an error value**,
whether it is announced before or after the status: the client below receives the length announced,
or none under a status that has none; it receives it after the status and before the end of the
head; and no call of the stack returns the error value. -/
theorem sizedHeadScript_contentLength (S : SizedHeadScript) (io : StreamIo) :
    let run := S.run StreamIo.client io
    run.2.log.filterMap Call.contentLength? = (if S.status = 204 ∨ S.status = 304 then []
        else (S.before ++ S.after).filterMap Call.contentLength?) ∧
      (∀ l len r, run.2.log = l ++ .sendContentLength len :: r →
        .sendStatus S.status S.statusName ∈ l ∧ .completeHeader ∉ l) ∧
      ∀ x ∈ run.1, x ≠ .ok negEinval := by
  intro run
  obtain ⟨made, hne, hmade, hlog, _, hvalues⟩ := S.log_run StreamIo.bounded io
  have hneg : negEinval.toNat = 2 ^ 64 - 22 := by decide
  refine ⟨?_, fun l len r hsplit ↦ ?_, fun x hx herr ↦ ?_⟩
  · rw [hlog]
    exact S.filterMap_contentLength hne hmade
  · exact HeadScript.place_of_contentLength hmade (hlog ▸ hsplit)
  · have hending := S.allowance_ending_lt
    rcases hvalues x hx negEinval herr with ⟨h, c, _, hle⟩ | hle
    · have hc := HeadScript.allowance_emits_le h c
      omega
    · omega

end CppRepo
