import CppRepo.Http.Filters
import CppRepo.Http.HeadBuffering

/-!
# What a filter passes on

Each of the three filters that shape a response turns one call into a list of calls of its
decoratee, made in order until one throws, and a change of its own fields. `passes` is that list and
`next` the change; both depend on the filter's fields and the call only, so the filter is a
transducer of calls. The call returns the sum of what the decoratee's calls return, except that a
content length that comes before the status returns an error value.

`AccountingFilter` passes every call on, and its fields depend on what the decoratee returns.

## How the specifications are used

For each filter `ensures_invoke_iff` says, of any decoratee and any postcondition, that making a
call is making the calls of `passes` and then setting the fields to `next`. All that the other
modules prove about a filter, and about a stack of them, rests on these equivalences and on the two
lists; the bodies of the methods are unfolded here and nowhere else.
-/

namespace CppRepo

variable {δ : Type}

/-! ## Several calls

A run of calls on the decoratee has the rules of a list: nothing to do, one more call, an append.
What the run returns is a sum that may wrap around, and `allowance` is the bound that keeps it from
doing so. Recorded, a run that throws has made a first part of its calls, and that part is not empty
if there was a call to make. -/

/-- Makes the calls in order and adds up what they return. The first exception ends it. -/
def callAll (d : RestfulClient δ) : List Call → Method δ UInt64
  | [] => return 0
  | c :: cs => do
    let sent ← d.invoke c
    return sent + (← callAll d cs)

section CallAll

variable {d : RestfulClient δ} {s : δ} {Q : UInt64 → δ → Prop} {E : Fault Exception → δ → Prop}

@[simp] theorem ensures_callAll_nil : Ensures (callAll d []) s Q E ↔ Q 0 s := Iff.rfl

@[simp] theorem ensures_callAll_cons {c : Call} {cs : List Call} :
    Ensures (callAll d (c :: cs)) s Q E ↔ Ensures (d.invoke c) s
      (fun n t ↦ Ensures (callAll d cs) t (fun m u ↦ Q (n + m) u) E) E := by
  simp only [callAll, ensures_bind, ensures_pure]

theorem ensures_callAll_singleton {c : Call} :
    Ensures (callAll d [c]) s Q E ↔ Ensures (d.invoke c) s Q E := by
  simp only [ensures_callAll_cons, ensures_callAll_nil, add_zero]

theorem ensures_callAll_append {cs ds : List Call} : Ensures (callAll d (cs ++ ds)) s Q E
    ↔ Ensures (callAll d cs) s
      (fun n t ↦ Ensures (callAll d ds) t (fun m u ↦ Q (n + m) u) E) E := by
  induction cs generalizing s Q with
  | nil => simp only [List.nil_append, ensures_callAll_nil, zero_add]
  | cons c cs ih => simp only [List.cons_append, ensures_callAll_cons, ih, add_assoc]

private theorem ensures_callAll_invariant {I : δ → Prop} {cs : List Call}
    (h : ∀ c ∈ cs, ∀ s, I s → Ensures (d.invoke c) s (fun _ t ↦ I t) E) (hs : I s) :
    Ensures (callAll d cs) s (fun _ t ↦ I t) E := by
  induction cs generalizing s with
  | nil => exact hs
  | cons c cs ih =>
    rw [ensures_callAll_cons]
    refine (h c List.mem_cons_self s hs).mono (fun _ t ht ↦ ?_) fun _ _ he ↦ he
    exact ih (fun c' hc' ↦ h c' (List.mem_cons_of_mem c hc')) ht

end CallAll

/-- No call of `d` returns more than `b` allows it. -/
def Bounded (d : RestfulClient δ) (b : Call → ℕ) : Prop :=
  ∀ c s, Ensures (d.invoke c) s (fun n _ ↦ n.toNat ≤ b c) fun _ _ ↦ True

/-- What the calls may return together. -/
def allowance (b : Call → ℕ) (cs : List Call) : ℕ := (cs.map b).sum

theorem allowance_singleton (b : Call → ℕ) (c : Call) : allowance b [c] = b c := by
  rw [allowance, List.map_singleton, List.sum_singleton]

private theorem toNat_add_le (n m : UInt64) : (n + m).toNat ≤ n.toNat + m.toNat := by
  rw [UInt64.toNat_add]
  exact Nat.mod_le _ _

theorem bounded_toNat (d : RestfulClient δ) : Bounded d fun _ ↦ 2 ^ 64 := by
  intro c s
  rw [Ensures]
  cases d.invoke c s with
  | ok n t => exact n.toNat_lt.le
  | error e t => trivial

theorem ensures_callAll_recorded {d : RestfulClient δ} {b : Call → ℕ} (hd : Bounded d b)
    (cs : List Call) : ∀ s : List Call × δ, Ensures (callAll (recorded d) cs) s
      (fun n t ↦ t.1 = s.1 ++ cs ∧ n.toNat ≤ allowance b cs)
      fun _ t ↦ ∃ made, made ≠ [] ∧ made <+: cs ∧ t.1 = s.1 ++ made := by
  induction cs with
  | nil => exact fun s ↦ ⟨(List.append_nil _).symm, le_rfl⟩
  | cons c cs ih =>
    intro s
    rw [ensures_callAll_cons, ensures_recorded_iff]
    refine (hd c s.2).mono (fun n t hn ↦ ?_) fun _ t _ ↦ ?_
    · refine (ih (s.1 ++ [c], t)).mono ?_ ?_
      · rintro m u ⟨hu, hm⟩
        refine ⟨by rw [hu, List.append_assoc, List.singleton_append], ?_⟩
        rw [allowance, List.map_cons, List.sum_cons]
        exact (toNat_add_le n m).trans (Nat.add_le_add hn hm)
      · rintro _ u ⟨made, hne, hmade, hu⟩
        refine ⟨c :: made, List.cons_ne_nil _ _, List.cons_prefix_cons.mpr ⟨rfl, hmade⟩, ?_⟩
        rw [hu, List.append_assoc, List.singleton_append]
    · exact ⟨[c], List.cons_ne_nil _ _, List.cons_prefix_cons.mpr ⟨rfl, List.nil_prefix⟩, rfl⟩

variable {φ : Type}

private theorem ensures_decorated_iff (d : RestfulClient δ) (c : Call) (f : φ) (s : δ)
    (Q : UInt64 → φ × δ → Prop) (E : Fault Exception → φ × δ → Prop) :
    Ensures ((decoratedRestfulClient d).invoke c) (f, s) Q E ↔ Ensures (callAll d [c]) s
      (fun n t ↦ Q n (f, t)) fun e t ↦ E e (f, t) := by
  rw [decoratedRestfulClient_invoke, ensures_onDecoratee, ensures_callAll_singleton]

/-! ## Accounting

What the next call will do depends on the number of bytes this one returned, so `next` has it as an
argument. -/

namespace AccountingFilter

/-- The filter after a call that returned `n`. `flush` is not counted. -/
def next (f : AccountingFilter) (c : Call) (n : UInt64) : AccountingFilter :=
  if c = .flush then f else f.addSent n

theorem ensures_invoke_iff {d : RestfulClient δ} {c : Call} {f : AccountingFilter} {s : δ}
    {Q : UInt64 → AccountingFilter × δ → Prop} {E : Fault Exception → AccountingFilter × δ → Prop} :
    Ensures ((client d).invoke c) (f, s) Q E ↔ Ensures (d.invoke c) s
      (fun n t ↦ Q n (f.next c n, t)) fun e t ↦ E e (f, t) := by
  cases c with
  | flush =>
    simp only [RestfulClient.invoke, client, decoratedRestfulClient, ensures_bind,
      ensures_onDecoratee, ensures_pure, next, if_true]
  | _ =>
    simp only [RestfulClient.invoke, client, accounting, ensures_bind, ensures_onDecoratee,
      ensures_modifyOwn, ensures_pure, next, reduceCtorEq, if_false]

end AccountingFilter

/-! ## Chunking

The size line is the one text the filter makes by itself. A header line announces the chunks, and
everything else is passed on as it is. -/

namespace ChunkingFilter

/-- The line that says how long a chunk is. The length is a `size_t`. -/
def sizeLine (buf : Bytes) : Bytes := numeral 16 (UInt64.ofNat buf.length).toNat ++ crlf

/-- What the filter calls for one call. -/
def passes (f : ChunkingFilter) : Call → List Call
  | .sendChunkedTransferEncoding =>
    [.sendHeader (ascii "Transfer-Encoding") (ascii "chunked")]
  | .sendBody buf =>
    if f.chunkingEnabled then [.sendBody (sizeLine buf), .sendBody buf, .sendBody crlf]
    else [.sendBody buf]
  | .completeRequest =>
    if f.chunkingEnabled then [.sendBody (ascii "0\r\n\r\n"), .completeRequest]
    else [.completeRequest]
  | c => [c]

/-- The filter after one call. -/
def next (f : ChunkingFilter) : Call → ChunkingFilter
  | .sendChunkedTransferEncoding => { f with chunkingEnabled := true }
  | _ => f

/-- The size line is rendered whole: sixteen digits and a line end fit an array of 32. -/
theorem snprintf_sizeLine (buf : Bytes) :
    snprintf 32 (sizeLine buf) = (sizeLine buf ++ [0], ((sizeLine buf).length : ℤ)) := by
  have hlen : (numeral 16 (UInt64.ofNat buf.length).toNat).length ≤ 16 :=
    length_numeral_le (by omega) (by omega) (UInt64.toNat_lt _)
  refine snprintf_of_lt ?_ (by decide)
  rw [sizeLine, List.length_append, length_crlf]
  omega

theorem eq_of_mem_passes {f : ChunkingFilter} {c c' : Call} (hc' : c' ∈ f.passes c) :
    c' = c ∨ (∃ name value, c' = .sendHeader name value) ∨ ∃ buf, c' = .sendBody buf := by
  cases c with
  | sendChunkedTransferEncoding =>
    exact .inr (.inl ⟨_, _, List.mem_singleton.mp hc'⟩)
  | sendBody buf =>
    rw [passes] at hc'
    split_ifs at hc' <;> simp only [List.mem_cons, List.not_mem_nil, or_false] at hc'
    · rcases hc' with rfl | rfl | rfl <;> exact .inr (.inr ⟨_, rfl⟩)
    · exact .inl hc'
  | completeRequest =>
    rw [passes] at hc'
    split_ifs at hc' <;> simp only [List.mem_cons, List.not_mem_nil, or_false] at hc'
    · exact hc'.symm.imp_right fun h ↦ .inr ⟨_, h⟩
    · exact .inl hc'
  | _ => exact .inl (List.mem_singleton.mp hc')

theorem lineFits_of_mem {f : ChunkingFilter} {c c' : Call} (hline : ClientIo.LineFits c)
    (hc' : c' ∈ f.passes c) : ClientIo.LineFits c' := by
  rcases eq_of_mem_passes hc' with rfl | ⟨name, value, rfl⟩ | ⟨buf, rfl⟩
  · exact hline
  · trivial
  · trivial

theorem ensures_invoke_iff {d : RestfulClient δ} {c : Call} {f : ChunkingFilter} {s : δ}
    {Q : UInt64 → ChunkingFilter × δ → Prop} {E : Fault Exception → ChunkingFilter × δ → Prop} :
    Ensures ((client d).invoke c) (f, s) Q E ↔ Ensures (callAll d (f.passes c)) s
      (fun n t ↦ Q n (f.next c, t)) fun e t ↦ E e (f.next c, t) := by
  have hpass := ensures_decorated_iff d c f s Q E
  cases c with
  | sendChunkedTransferEncoding =>
    rw [passes, ensures_callAll_singleton]
    simp only [RestfulClient.invoke, client, sendChunkedTransferEncoding, ensures_bind,
      ensures_modifyOwn, ensures_onDecoratee, next]
  | sendBody buf =>
    have hline := snprintf_sizeLine buf
    rw [sizeLine] at hline
    by_cases hf : f.chunkingEnabled = true
    · simp only [RestfulClient.invoke, client, sendBody, ensures_bind, ensures_ownFields, hf,
        not_true_eq_false, if_false, hline, Int.toNat_natCast, charRange_of_append, ensures_pure,
        ensures_onDecoratee, passes, if_true, ensures_callAll_cons, ensures_callAll_nil, next,
        sizeLine, add_zero, add_assoc]
    · simp only [RestfulClient.invoke, client, sendBody, ensures_bind, ensures_ownFields, hf,
        not_false_eq_true, if_true, ensures_onDecoratee, passes, Bool.false_eq_true, if_false,
        ensures_callAll_singleton, next]
  | completeRequest =>
    by_cases hf : f.chunkingEnabled = true
    · simp only [RestfulClient.invoke, client, completeRequest, ensures_bind, ensures_ownFields,
        hf, if_true, ensures_onDecoratee, ensures_pure, passes, ensures_callAll_cons,
        ensures_callAll_nil, next, zero_add, add_zero]
    · simp only [RestfulClient.invoke, client, completeRequest, ensures_bind, ensures_ownFields,
        hf, if_false, ensures_onDecoratee, ensures_pure, passes, ensures_callAll_cons,
        ensures_callAll_nil, next, zero_add, add_zero, Bool.false_eq_true]
  | _ => exact hpass

end ChunkingFilter

/-! ## Content length

The filter passes on what it is given or nothing, and it never invents a call. -/

namespace ConLenControllingFilter

/-- What the filter calls for one call. -/
def passes (f : ConLenControllingFilter) : Call → List Call
  | .sendContentLength len => if f.action = .forward then [.sendContentLength len] else []
  | c => [c]

/-- The filter after one call. -/
def next (f : ConLenControllingFilter) : Call → ConLenControllingFilter
  | .sendStatus status _ => { f with action := actionOf status }
  | _ => f

theorem actionOf_ne_unknown (status : Int32) : actionOf status ≠ .unknown := by
  rw [actionOf]
  split_ifs <;> simp

/-- What the filter returns for one call, given what its decoratee returned. -/
def value (f : ConLenControllingFilter) (c : Call) (n : UInt64) : UInt64 :=
  match c with
  | .sendContentLength _ => if f.action = .unknown then negEinval else n
  | _ => n

theorem eq_of_mem_passes {f : ConLenControllingFilter} {c c' : Call} (hc' : c' ∈ f.passes c) :
    c' = c := by
  cases c with
  | sendContentLength len =>
    rw [passes] at hc'
    split_ifs at hc'
    · exact List.mem_singleton.mp hc'
    · cases hc'
  | _ => exact List.mem_singleton.mp hc'

theorem ensures_invoke_iff {d : RestfulClient δ} {c : Call} {f : ConLenControllingFilter} {s : δ}
    {Q : UInt64 → ConLenControllingFilter × δ → Prop}
    {E : Fault Exception → ConLenControllingFilter × δ → Prop} :
    Ensures ((client d).invoke c) (f, s) Q E ↔ Ensures (callAll d (f.passes c)) s
      (fun n t ↦ Q (f.value c n) (f.next c, t)) fun e t ↦ E e (f.next c, t) := by
  have hpass := ensures_decorated_iff d c f s Q E
  cases c with
  | sendStatus status statusName =>
    simp only [RestfulClient.invoke, client, sendStatus, ensures_bind, ensures_modifyOwn,
      ensures_onDecoratee, passes, ensures_callAll_singleton, next, value]
  | sendContentLength len =>
    cases hf : f.action <;>
      simp [RestfulClient.invoke, client, sendContentLength, hf, passes, next, value]
  | _ => exact hpass

end ConLenControllingFilter

/-! ## Reordering

The end of the head is the call at which the filter makes up for all that waited, in the order in
which it came. If one of these calls throws, the headers are still buffered; that is why the
specification has a case of its own for the exception. -/

namespace ReorderingFilter

/-- The calls that end the head: the content length that came early, the headers in order. -/
def buffered (f : ReorderingFilter) : List Call :=
  (f.contentLength.map .sendContentLength).toList ++ f.headers.map fun kv ↦ .sendHeader kv.1 kv.2

/-- What the filter calls for one call. -/
def passes (f : ReorderingFilter) : Call → List Call
  | .sendHeader name value => if f.phase = .data then [.sendHeader name value] else []
  | .sendContentLength len =>
    if f.phase = .earlyHeaders then [] else [.sendContentLength len]
  | .completeHeader => f.buffered ++ [.completeHeader]
  | .send100Continue => [.send100Continue]
  | .sendStatus status statusName => [.sendStatus status statusName]
  | .sendChunkedTransferEncoding => [.sendChunkedTransferEncoding]
  | .sendBody buf => [.sendBody buf]
  | .flush => [.flush]
  | .completeRequest => [.completeRequest]

/-- The filter after one call that returned. -/
def next (f : ReorderingFilter) : Call → ReorderingFilter
  | .sendHeader name value =>
    if f.phase = .data then f else { f with headers := f.headers ++ [(name, value)] }
  | .sendStatus _ _ => { f with phase := .statusSeen }
  | .sendContentLength len =>
    if f.phase = .earlyHeaders then { f with contentLength := some len } else f
  | .completeHeader => { f with phase := .data, headers := [] }
  | .send100Continue | .sendChunkedTransferEncoding | .sendBody _ | .flush | .completeRequest => f

theorem eq_of_mem_passes {f : ReorderingFilter} {c c' : Call} (hc' : c' ∈ f.passes c) :
    c' = c ∨ c = .completeHeader ∧
      ((∃ len, c' = .sendContentLength len) ∨ ∃ name value, c' = .sendHeader name value) := by
  cases c with
  | sendHeader name value =>
    rw [passes] at hc'
    split_ifs at hc'
    · exact .inl (List.mem_singleton.mp hc')
    · cases hc'
  | sendContentLength len =>
    rw [passes] at hc'
    split_ifs at hc'
    · cases hc'
    · exact .inl (List.mem_singleton.mp hc')
  | completeHeader =>
    rw [passes, buffered] at hc'
    simp only [List.mem_append, Option.mem_toList, Option.map_eq_some_iff, List.mem_map,
      List.mem_singleton] at hc'
    rcases hc' with (⟨len, _, rfl⟩ | ⟨kv, _, rfl⟩) | rfl
    · exact .inr ⟨rfl, .inl ⟨len, rfl⟩⟩
    · exact .inr ⟨rfl, .inr ⟨_, _, rfl⟩⟩
    · exact .inl rfl
  | _ => exact .inl (List.mem_singleton.mp hc')

theorem lineFits_of_mem {f : ReorderingFilter} {c c' : Call} (hline : ClientIo.LineFits c)
    (hc' : c' ∈ f.passes c) : ClientIo.LineFits c' := by
  rcases eq_of_mem_passes hc' with rfl | ⟨_, ⟨len, rfl⟩ | ⟨name, value, rfl⟩⟩
  · exact hline
  · trivial
  · trivial

private theorem sendBuffered_eq (d : RestfulClient δ) (headers : List (Bytes × Bytes)) :
    sendBuffered d headers = callAll d (headers.map fun kv ↦ .sendHeader kv.1 kv.2) := by
  induction headers with
  | nil => rfl
  | cons kv headers ih => rw [sendBuffered, ih]; rfl

/-- When `complete_header` throws, the headers are still buffered, or all were sent. -/
theorem ensures_invoke_of {d : RestfulClient δ} {c : Call} {f : ReorderingFilter} {s : δ}
    {Q : UInt64 → ReorderingFilter × δ → Prop} {E : Fault Exception → ReorderingFilter × δ → Prop}
    (h : Ensures (callAll d (f.passes c)) s (fun n t ↦ Q n (f.next c, t))
      fun e t ↦ E e (f.next c, t) ∧ (c = .completeHeader → E e ({ f with phase := .data }, t))) :
    Ensures ((client d).invoke c) (f, s) Q E := by
  have hpass := ensures_decorated_iff d c f s Q E
  cases c with
  | sendStatus status statusName =>
    simp only [RestfulClient.invoke, client, sendStatus, ensures_bind, ensures_modifyOwn,
      ensures_onDecoratee]
    rw [passes, ensures_callAll_singleton] at h
    exact h.mono (fun _ _ hq ↦ hq) fun _ _ he ↦ he.1
  | sendHeader name value =>
    cases hf : f.phase with
    | data =>
      rw [passes, if_pos hf, ensures_callAll_singleton, next, if_pos hf] at h
      simp only [RestfulClient.invoke, client, sendHeader, ensures_bind, ensures_ownFields, hf,
        ensures_onDecoratee]
      exact h.mono (fun _ _ hq ↦ hq) fun _ _ he ↦ he.1
    | earlyHeaders | statusSeen =>
      simp only [passes, next, hf, reduceCtorEq, if_false, ensures_callAll_nil] at h
      simp only [RestfulClient.invoke, client, sendHeader, ensures_bind, ensures_ownFields, hf,
        ensures_modifyOwn, ensures_pure]
      exact h
  | sendContentLength len =>
    by_cases hf : f.phase = .earlyHeaders
    · simp only [passes, next, hf, if_true, ensures_callAll_nil] at h
      simp only [RestfulClient.invoke, client, sendContentLength, ensures_bind, ensures_ownFields,
        hf, if_true, ensures_modifyOwn, ensures_pure]
      exact h
    · rw [passes, if_neg hf, ensures_callAll_singleton, next, if_neg hf] at h
      simp only [RestfulClient.invoke, client, sendContentLength, ensures_bind, ensures_ownFields,
        hf, if_false, ensures_onDecoratee]
      exact h.mono (fun _ _ hq ↦ hq) fun _ _ he ↦ he.1
  | completeHeader =>
    rw [passes, buffered, ensures_callAll_append, ensures_callAll_append, next] at h
    simp only [RestfulClient.invoke, client, completeHeader, sendBuffered_eq]
    cases hlen : f.contentLength with
    | none =>
      simp only [hlen, Option.map_none, Option.toList_none, ensures_callAll_nil,
        ensures_callAll_singleton, zero_add, forall_const] at h
      simp only [ensures_bind, ensures_modifyOwn, ensures_ownFields, hlen, ensures_onDecoratee,
        ensures_pure, zero_add]
      refine h.mono (fun m t ht ↦ ?_) fun _ _ he ↦ he.2
      exact ht.mono (fun _ _ hq ↦ hq) fun _ _ he ↦ he.1
    | some len =>
      simp only [hlen, Option.map_some, Option.toList_some, ensures_callAll_singleton,
        forall_const] at h
      simp only [ensures_bind, ensures_modifyOwn, ensures_ownFields, hlen, ensures_onDecoratee,
        ensures_pure, zero_add]
      refine h.mono (fun n t ht ↦ ?_) fun _ _ he ↦ he.2
      refine ht.mono (fun m u hu ↦ ?_) fun _ _ he ↦ he.2
      exact hu.mono (fun _ _ hq ↦ hq) fun _ _ he ↦ he.1
  | _ => exact hpass.mpr (h.mono (fun _ _ hq ↦ hq) fun _ _ he ↦ he.1)

end ReorderingFilter

/-! ## Stacks on which no call throws

Whether anything throws is decided at the bottom. `Returns` says of a client that no call throws
from a state with the invariant `I`, whose calls fit their arrays; filters and stacks inherit it. -/

/-- From states satisfying `I`, every call whose status line fits returns, to a state satisfying
`I`. -/
def Returns (d : RestfulClient δ) (I : δ → Prop) : Prop :=
  ∀ c, ClientIo.LineFits c → ∀ s, I s → Ensures (d.invoke c) s (fun _ t ↦ I t) fun _ _ ↦ False

namespace Returns

variable {d : RestfulClient δ} {I : δ → Prop}

theorem callAll (h : Returns d I) {cs : List Call} (hcs : ∀ c ∈ cs, ClientIo.LineFits c) {s : δ}
    (hs : I s) : Ensures (callAll d cs) s (fun _ t ↦ I t) fun _ _ ↦ False :=
  ensures_callAll_invariant (fun c hc ↦ h c (hcs c hc)) hs

theorem recorded (h : Returns d I) : Returns (recorded d) fun s ↦ I s.2 := by
  intro c hline s hs
  rw [ensures_recorded_iff]
  exact h c hline s.2 hs

theorem filter (h : Returns d I) (k : FilterKind) : Returns (k.client d) fun s ↦ I s.2 := by
  rintro c hline ⟨f, s⟩ hs
  cases k with
  | accounting => exact AccountingFilter.ensures_invoke_iff.mpr (h c hline s hs)
  | chunking =>
    exact ChunkingFilter.ensures_invoke_iff.mpr
      (h.callAll (fun c' hc' ↦ ChunkingFilter.lineFits_of_mem hline hc') hs)
  | conLenControlling =>
    exact ConLenControllingFilter.ensures_invoke_iff.mpr
      (h.callAll (fun c' hc' ↦ ConLenControllingFilter.eq_of_mem_passes hc' ▸ hline) hs)
  | reordering =>
    refine ReorderingFilter.ensures_invoke_of ?_
    exact (h.callAll (fun c' hc' ↦ ReorderingFilter.lineFits_of_mem hline hc') hs).mono
      (fun _ _ ht ↦ ht)
      fun _ _ hf ↦ hf.elim

theorem stack (h : Returns d I) :
    ∀ ks : List FilterKind, Returns (stackClient d ks) fun s ↦ I (stackBase ks s)
  | [] => h
  | k :: ks => (h.stack ks).filter k

end Returns

theorem StreamIo.returns (log : List Event) :
    Returns StreamIo.client fun io ↦ io.txbuf.Settled (Stream.WritingSince log) := by
  intro c hline io hio
  have hkeeps := Stream.sink_keeps_reliable log
  by_cases hbody : c.body? = none
  · refine (ClientIo.ensures_invoke_taken hkeeps recvBody hbody hline hio).mono ?_ ?_
    · rintro _ t ⟨_, _, ht, _⟩
      exact ht
    · rintro _ t ⟨⟨x, hx, _⟩, _⟩
      exact hx
  · cases c with
    | sendBody buf =>
      rw [StreamIo.client, ClientIo.ensures_sendBody_iff]
      exact (hkeeps buf _ hio.2).mono (fun _ w hw ↦ ⟨hio.1, hw.1⟩) fun _ _ hf ↦ hf.1
    | _ => exact absurd rfl hbody

/-! ## How much a call can return

A bound for each call is enough to rule out an error value among the results, which would be larger.
It depends on the call alone: what a client generates for it has a text of bounded length, or is as
long as the body it is given. -/

/-- A bound on what a call of a client returns. All but headers and bodies is small. -/
def returnBound : Call → ℕ
  | .sendHeader name value => name.length + value.length + 4
  | .sendBody buf => buf.length
  | .send100Continue | .sendStatus _ _ | .sendContentLength _ | .sendChunkedTransferEncoding
  | .completeHeader | .flush | .completeRequest => 2 ^ 31

namespace StreamIo

private theorem length_completionTexts (io : StreamIo) :
    io.completionTexts.flatten.length ≤ 154 := by
  have hconn : (ClientIo.connectionText io.parser.message.keepAlive).length ≤ 24 := by
    rw [ClientIo.connectionText]
    split_ifs <;> decide
  have hdate : ∀ t, ClientIo.dumpDateHeader io.now = some t → (cString t).length ≤ 128 := by
    intro t ht
    refine (List.takeWhile_prefix _).length_le.trans ?_
    cases hnow : io.now with
    | none => rw [hnow] at ht; cases ht
    | some tm =>
      rw [hnow, ClientIo.dumpDateHeader] at ht
      split_ifs at ht with hlt
      cases ht
      exact hlt.le
  rw [ClientIo.completionTexts, List.flatten_append, List.length_append]
  have hrest :
      ([ClientIo.connectionText io.parser.message.keepAlive, crlf] : List Bytes).flatten.length
        ≤ 26 := by
    simp only [List.flatten_cons, List.flatten_nil, List.length_append, List.length_nil,
      length_crlf]
    omega
  cases hd : ClientIo.dumpDateHeader io.now with
  | none => exact (Nat.add_le_add (Nat.zero_le 0) hrest).trans (by omega)
  | some t =>
    have ht := hdate t hd
    simp only [Option.map_some, Option.toList_some, List.flatten_singleton]
    omega

private theorem length_generated_le (io : StreamIo) {c : Call} (hbody : c.body? = none)
    (hline : ClientIo.LineFits c) : (io.texts c).flatten.length ≤ returnBound c := by
  cases c with
  | sendBody buf => cases hbody
  | sendStatus status statusName =>
    have hlt : (ClientIo.statusLine status statusName).length < 128 := hline
    change ([_] : List Bytes).flatten.length ≤ 2 ^ 31
    rw [List.flatten_singleton]
    omega
  | sendHeader name value =>
    change ([_, _, _, _] : List Bytes).flatten.length ≤ name.length + value.length + 4
    have hsep : (ascii ": ").length = 2 := rfl
    simp only [List.flatten_cons, List.flatten_nil, List.length_append, List.length_nil,
      length_crlf, hsep]
    omega
  | sendContentLength len =>
    have hlt := ClientIo.length_contentLengthText_lt len
    change ([_] : List Bytes).flatten.length ≤ 2 ^ 31
    rw [List.flatten_singleton]
    omega
  | completeHeader =>
    have hle := length_completionTexts io
    change io.completionTexts.flatten.length ≤ 2 ^ 31
    omega
  | send100Continue =>
    change ([ClientIo.continueText] : List Bytes).flatten.length ≤ 2 ^ 31
    decide
  | _ => exact Nat.zero_le _

theorem bounded : Bounded client returnBound := by
  intro c io
  by_cases hbody : c.body? = none
  · by_cases hline : ClientIo.LineFits c
    · rw [client, ClientIo.ensures_invoke_iff hbody hline]
      refine (StaticOutputBufferer.ensures_emit_le _ _ io.txbuf).mono (fun n b hn ↦ ?_)
        fun _ _ _ ↦ trivial
      exact hn.trans (length_generated_le io hbody hline)
    · -- a status line that does not fit: at most the array is put
      cases c with
      | sendStatus status statusName =>
        have harray : (snprintf 128 (ClientIo.statusLine status statusName)).1.length ≤ 128 := by
          rw [snprintf, List.length_append, List.length_take]
          exact Nat.succ_le_succ (min_le_left _ _)
        change Ensures (ClientIo.putArray Stream.sink
          (snprintf 128 (ClientIo.statusLine status statusName)).1
          (snprintf 128 (ClientIo.statusLine status statusName)).2) io _ _
        rw [ClientIo.putArray, ensures_bind, charRange]
        split_ifs with hle
        · rw [ensures_pure, ClientIo.ensures_putText]
          refine (StaticOutputBufferer.ensures_sputn_le _ io.txbuf).mono (fun n b hn ↦ ?_)
            fun _ _ _ ↦ trivial
          change (UInt64.ofNat n).toNat ≤ 2 ^ 31
          rw [List.length_take] at hn
          rw [UInt64.toNat_ofNat']
          have hmod := Nat.mod_le n (2 ^ 64)
          omega
        · trivial
      | _ => exact absurd trivial hline
  · cases c with
    | sendBody buf =>
      rw [client, ClientIo.ensures_sendBody_iff]
      refine (Stream.ensures_writeData buf io.txbuf.sink).mono ?_ fun _ _ _ ↦ trivial
      rintro n w ⟨_, rfl, _⟩
      rw [UInt64.toNat_ofNat']
      exact Nat.mod_le _ _
    | _ => exact absurd rfl hbody

end StreamIo

theorem Returns.allReturn {d : RestfulClient δ} {I : δ → Prop} (h : Returns d I) {calls : List Call}
    (hcalls : ∀ c ∈ calls, ClientIo.LineFits c) {s : δ} (hs : I s) :
    AllReturn (runAll d.invoke calls s) := by
  refine (runAll_trace (I := fun _ t ↦ I t) hs (fun done c rest hsplit t ht ↦ ?_)
    List.prefix_rfl).1
  exact h c (hcalls c (hsplit ▸ List.mem_append_right _ List.mem_cons_self)) t ht

end CppRepo
