import CppRepo.FileServer.FileServer

/-!
# What a client makes of the responses

All responses of a session go into one stream, and the client takes them apart: after the fields of
a response come as many bytes as its `Content-Length` says, and none after the response to a `HEAD`
request. `handle_request` keeps to this for the files, but it sends the text of an error for `HEAD`
too. The client takes the text for the beginning of the next response, so it is in step with the
server exactly as long as no `HEAD` request is answered with an error.

## The end of a session

The last response of a session may not have been written in full. What there is of it is left in the
stream after the responses before it. Its fields announce more than is there, so the client, which
waits for the rest, sees that it is cut off; except again for the text of an error that answers a
`HEAD` request, which the client does not wait for.

## How the stream is taken apart

`receive_append` splits what the client makes of a stream at a request, so the responses are looked
at one by one: `takeBody_append` is the case of a response that was written in full,
`receive_part_isSome_iff` the case of one that was not. Everything that `handle_request` says about
the length of a response is in `Answers.length`.

**Main results.** The client gets each response that was written in full exactly if no `HEAD` was
answered with an error (`session_inStep_iff`), and then it takes a response that was cut off for a
whole one exactly if that is such an error (`receive_cut_isSome_iff`).
-/

namespace CppRepo

namespace FileServer

variable {docRoot : Bytes} {x : Request × Response} {exchanges : List (Request × Response)}
  {rest : List Token}

/-! ## The client -/

/-- Takes the bytes of a body out of the stream. -/
def takeBody : ℕ → List Token → Option (Bytes × List Token)
  | 0, stream => some ([], stream)
  | n + 1, .byte b :: stream => (takeBody n stream).map fun (body, rest) ↦ (b :: body, rest)
  | _ + 1, _ => none

/-- How many bytes follow the fields, as far as the client can tell. -/
def bodyLength (method : Verb) (head : ResponseHead) : Option ℕ :=
  if method = .head then some 0 else head.contentLength

/-- What the client makes of a stream: the fields and the bodies of the responses to its requests,
and what is left. -/
def receive : List Verb → List Token → Option (List (ResponseHead × Bytes) × List Token)
  | [], stream => some ([], stream)
  | method :: methods, .head head :: stream => do
    let (body, stream) ← takeBody (← bodyLength method head) stream
    let (responses, rest) ← receive methods stream
    return ((head, body) :: responses, rest)
  | _ :: _, _ => none

/-- What the client should see of a response. -/
def Response.seen (res : Response) (method : Verb) : ResponseHead × Bytes :=
  (res.head, if method = .head then [] else res.body)

/-- The responses of a session that were written in full. -/
def wholes (exchanges : List (Request × Response)) : List Token := exchanges.flatMap (·.2.tokens)

/-- What is left in the stream by the write that failed. -/
def Sent.part (sent : Sent) : List Token := sent.cut.elim [] (·.part)

/-- The stream of a session. -/
def Sent.stream (sent : Sent) : List Token := wholes sent.exchanges ++ sent.part

/-- The methods of the requests that were answered in full. -/
def Sent.methods (sent : Sent) : List Verb := sent.exchanges.map (·.1.method)

/-- The client gets each response, and is left with `rest`. -/
def Follows (exchanges : List (Request × Response)) (rest : List Token) : Prop :=
  receive (exchanges.map (·.1.method)) (wholes exchanges ++ rest) =
    some (exchanges.map fun x ↦ x.2.seen x.1.method, rest)

/-- The client gets each response that was written in full, and nothing else. -/
def InStep (sent : Sent) : Prop := Follows sent.exchanges sent.part

private theorem takeBody_append (body : Bytes) (rest : List Token) :
    takeBody body.length (body.map .byte ++ rest) = some (body, rest) := by
  induction body with
  | nil => rfl
  | cons b body ih =>
    rw [List.length_cons, List.map_cons, List.cons_append, takeBody, ih]
    rfl

/-- There are not as many bytes as the client waits for. -/
private theorem takeBody_eq_none {n : ℕ} {body : Bytes} (h : body.length < n) :
    takeBody n (body.map .byte) = none := by
  induction body generalizing n with
  | nil =>
    obtain ⟨k, rfl⟩ := Nat.exists_eq_succ_of_ne_zero h.ne'
    rfl
  | cons b body ih =>
    obtain ⟨k, rfl⟩ := Nat.exists_eq_succ_of_ne_zero (Nat.zero_lt_of_lt h).ne'
    rw [List.map_cons, takeBody, ih (Nat.lt_of_succ_lt_succ h), Option.map_none]

private theorem receive_append (methods methods' : List Verb) (stream : List Token) :
    receive (methods ++ methods') stream = (receive methods stream).bind fun p ↦
      (receive methods' p.2).map fun q ↦ (p.1 ++ q.1, q.2) := by
  induction methods generalizing stream with
  | nil => simp [receive]
  | cons method methods ih =>
    cases stream with
    | nil => rfl
    | cons token stream =>
      cases token with
      | byte b => rfl
      | head head =>
        simp only [List.cons_append, receive, ih, Option.bind_eq_bind, Option.pure_def,
          Option.bind_assoc, Option.bind_some, Option.map_eq_bind, Function.comp_def]

/-! ## The lengths of responses -/

/-- The response is one that `handle_request` sends to the request. -/
def Answers (docRoot : Bytes) (x : Request × Response) : Prop :=
  ∃ openFile, x.2 = handleRequest docRoot openFile x.1

/-- What `handle_request` says about the length of its response. -/
private theorem Answers.length (h : Answers docRoot x) :
    ∃ n, x.2.head.contentLength = some n ∧
      (x.1.method ≠ .head → n = x.2.body.length + x.2.missing) ∧
      (x.1.method = .head → x.2.missing = 0 ∧ (x.2.head.status = 200 ↔ x.2.body = [])) := by
  obtain ⟨openFile, hx⟩ := h
  rw [hx]
  rcases handleRequest_cases docRoot openFile x.1 with ⟨status, body, hne, hbody, heq⟩ | hfile
  · rw [heq]
    exact ⟨body.length, rfl, fun _ ↦ rfl, fun _ ↦ ⟨rfl, iff_of_false hne hbody⟩⟩
  · obtain ⟨f, -, -, heq⟩ := hfile
    rw [heq]
    refine ⟨f.size, rfl, fun hmethod ↦ ?_, fun hmethod ↦ ⟨?_, iff_of_true rfl ?_⟩⟩
    · simp only [fileResponse, if_neg hmethod]
      exact (Nat.add_sub_of_le f.length_le).symm
    · simp only [fileResponse, if_pos hmethod]
    · simp only [fileResponse, if_pos hmethod]

/-! ## Responses that were written in full -/

/-- A response whose body is what the client expects is taken out of the stream. -/
private theorem follows_cons_iff (h : Answers docRoot x) (hmissing : x.2.missing = 0)
    (hbody : x.1.method = .head → x.2.head.status = 200) :
    Follows (x :: exchanges) rest ↔ Follows exchanges rest := by
  obtain ⟨n, hn, hother, hhead⟩ := h.length
  have hlength : bodyLength x.1.method x.2.head = some (x.2.seen x.1.method).2.length := by
    by_cases hmethod : x.1.method = .head
    · simp [bodyLength, Response.seen, hmethod]
    · simp [bodyLength, Response.seen, hmethod, hn, hother hmethod, hmissing]
  have hseen : (x.2.seen x.1.method).2 = x.2.body := by
    by_cases hmethod : x.1.method = .head
    · simp [Response.seen, hmethod, (hhead hmethod).2.mp (hbody hmethod)]
    · simp [Response.seen, hmethod]
  have htake : takeBody (x.2.seen x.1.method).2.length
      (x.2.body.map .byte ++ (wholes exchanges ++ rest)) =
        some ((x.2.seen x.1.method).2, wholes exchanges ++ rest) := by
    rw [hseen]
    exact takeBody_append x.2.body (wholes exchanges ++ rest)
  have hstream : wholes (x :: exchanges) ++ rest =
      .head x.2.head :: (x.2.body.map .byte ++ (wholes exchanges ++ rest)) := by
    rw [← List.append_assoc]
    rfl
  rw [Follows, hstream, List.map_cons, receive, hlength]
  simp only [Option.bind_eq_bind, Option.bind_some, htake]
  rw [Follows]
  cases hreceive : receive (exchanges.map (·.1.method)) (wholes exchanges ++ rest) with
  | none => simp
  | some p => simp [Response.seen, Prod.ext_iff]

/-- A text after the fields of the response to `HEAD` is not expected. -/
private theorem not_follows_cons (h : Answers docRoot x) (hmethod : x.1.method = .head)
    (hstatus : x.2.head.status ≠ 200) : ¬ Follows (x :: exchanges) rest := by
  obtain ⟨n, -, -, hhead⟩ := h.length
  have hne : x.2.body ≠ [] := mt (hhead hmethod).2.mpr hstatus
  obtain ⟨b, body, hbody⟩ := List.exists_cons_of_ne_nil hne
  have hstream : wholes (x :: exchanges) ++ rest =
      .head x.2.head :: .byte b :: (body.map .byte ++ (wholes exchanges ++ rest)) := by
    rw [wholes, List.flatMap_cons, Response.tokens, hbody, ← List.append_assoc]
    rfl
  rw [Follows, hstream, List.map_cons, hmethod, receive]
  cases exchanges with
  | nil =>
    simp only [bodyLength, takeBody, receive, wholes, if_true, List.map_nil, List.flatMap_nil,
      Option.bind_eq_bind, Option.bind_some, Option.pure_def, Option.some.injEq, Prod.mk.injEq,
      List.nil_append, not_and]
    intro _ hrest
    have hlength := congrArg List.length hrest
    simp only [List.length_cons, List.length_append, List.length_map] at hlength
    omega
  | cons y ys => simp [bodyLength, takeBody, receive]

private theorem follows_iff (h : ∀ x ∈ exchanges, Answers docRoot x ∧ x.2.missing = 0) :
    Follows exchanges rest ↔
      ∀ x ∈ exchanges, x.1.method = .head → x.2.head.status = 200 := by
  induction exchanges with
  | nil => exact iff_of_true rfl nofun
  | cons x xs ih =>
    obtain ⟨hx, hmissing⟩ := h x List.mem_cons_self
    have hxs : ∀ y ∈ xs, Answers docRoot y ∧ y.2.missing = 0 := fun y hy ↦
      h y (List.mem_cons_of_mem x hy)
    rw [List.forall_mem_cons]
    by_cases hbody : x.1.method = .head → x.2.head.status = 200
    · rw [follows_cons_iff hx hmissing hbody, ih hxs, and_iff_right hbody]
    · obtain ⟨hmethod, hstatus⟩ := Classical.not_imp.mp hbody
      exact iff_of_false (not_follows_cons hx hmethod hstatus) fun hall ↦ hbody hall.1

/-- What a session writes in full are responses of `handle_request` that miss nothing, and what it
could not write in full is one of them, too. -/
private theorem answers_doSession (docRoot : Bytes) (turns : List Turn) :
    (∀ x ∈ (doSession docRoot turns).exchanges, Answers docRoot x ∧ x.2.missing = 0) ∧
      ∀ c, (doSession docRoot turns).cut = some c → Answers docRoot (c.req, c.res) ∧
        ∃ n, c.part = c.res.part n := by
  induction turns with
  | nil => exact ⟨nofun, nofun⟩
  | cons turn turns ih =>
    rw [doSession]
    cases hread : turn.read with
    | endOfStream | error => exact ⟨nofun, nofun⟩
    | request req =>
      have hres : Answers docRoot (req, handleRequest docRoot turn.openFile req) :=
        ⟨turn.openFile, rfl⟩
      dsimp only
      split_ifs with hfails heof
      · refine ⟨nofun, fun c hc ↦ ?_⟩
        obtain rfl := Option.some.inj hc
        exact ⟨hres, _, rfl⟩
      all_goals obtain ⟨-, hmissing⟩ := not_or.mp hfails
      · refine ⟨fun x hx ↦ ?_, nofun⟩
        obtain rfl := List.mem_singleton.mp hx
        exact ⟨hres, not_not.mp hmissing⟩
      · refine ⟨fun x hx ↦ ?_, ih.2⟩
        rcases List.mem_cons.mp hx with rfl | hx
        · exact ⟨hres, not_not.mp hmissing⟩
        · exact ih.1 x hx

/-- **The client gets each response that was written in full exactly if no `HEAD` was answered with
an error.** -/
theorem session_inStep_iff (docRoot : Bytes) (turns : List Turn) :
    InStep (doSession docRoot turns) ↔ ∀ x ∈ (doSession docRoot turns).exchanges,
      x.1.method = .head → x.2.head.status = 200 :=
  follows_iff (answers_doSession docRoot turns).1

/-! ## A response that was cut off -/

/-- What the client makes of a beginning of a response. -/
private theorem receive_part_isSome_iff {req : Request} {res : Response}
    (h : Answers docRoot (req, res)) (n : ℕ) :
    (receive [req.method] (res.part n)).isSome ↔
      req.method = .head ∧ res.head.status ≠ 200 ∧ res.part n ≠ [] := by
  obtain ⟨length, hlength, hother, hhead⟩ := h.length
  dsimp only at hlength hother hhead
  have hpart : res.part n = res.tokens.take (min n (res.body.length + res.missing)) := by
    simp [Response.part, Response.tokens, Nat.add_right_comm]
  rcases hk : min n (res.body.length + res.missing) with - | k
  · -- Not even the fields were written.
    rw [hpart, hk, List.take_zero]
    exact iff_of_false (by simp [receive]) fun h ↦ h.2.2 rfl
  · have hle : k < res.body.length + res.missing := by omega
    have htokens : res.part n = .head res.head :: (res.body.take k).map .byte := by
      rw [hpart, hk, Response.tokens, List.take_succ_cons, List.map_take]
    have hne : res.part n ≠ [] := by
      rw [htokens]
      exact List.cons_ne_nil _ _
    rw [htokens, receive]
    by_cases hmethod : req.method = .head
    · obtain ⟨hmissing, hstatus⟩ := hhead hmethod
      have hbody : res.body ≠ [] := by
        rw [← List.length_pos_iff]
        omega
      simp [bodyLength, takeBody, receive, hmethod, hstatus, hbody]
    · have hshort : (res.body.take k).length < length := by
        rw [hother hmethod, List.length_take]
        omega
      have hlength' : bodyLength req.method res.head = some length := by
        rw [bodyLength, if_neg hmethod, hlength]
      simp only [Option.bind_eq_bind, hlength', Option.bind_some, takeBody_eq_none hshort,
        Option.bind_none]
      exact iff_of_false Bool.false_ne_true fun h ↦ hmethod h.1

/-- **A response that is cut off is seen to be.** The client that has asked for it, and is in step
up to there, takes what there is of it for a whole response exactly if it is the text of an error
that answers a `HEAD` request, of which the fields were written. -/
theorem receive_cut_isSome_iff (docRoot : Bytes) (turns : List Turn) (c : Cut)
    (hcut : (doSession docRoot turns).cut = some c) (hstep : InStep (doSession docRoot turns)) :
    (receive ((doSession docRoot turns).methods ++ [c.req.method])
        (doSession docRoot turns).stream).isSome ↔
      c.req.method = .head ∧ c.res.head.status ≠ 200 ∧ c.part ≠ [] := by
  obtain ⟨hanswers, n, hpart⟩ := (answers_doSession docRoot turns).2 c hcut
  have hrest : (doSession docRoot turns).part = c.part := by rw [Sent.part, hcut, Option.elim_some]
  have hreceive : receive (doSession docRoot turns).methods (doSession docRoot turns).stream =
      some (_, (doSession docRoot turns).part) := hstep
  rw [receive_append, hreceive, Option.bind_some, Option.isSome_map, hrest, hpart]
  exact receive_part_isSome_iff hanswers n

/-- A file of 100 bytes of which one can be read, after a `HEAD` request for it. -/
def shortened : List Turn :=
  [⟨.request ⟨.head, ascii "/a.txt", 11, true⟩, fun _ ↦ .file ⟨100, [65], by decide⟩, ⟨true, 0⟩⟩,
    ⟨.request ⟨.get, ascii "/a.txt", 11, true⟩, fun _ ↦ .file ⟨100, [65], by decide⟩, ⟨true, 9⟩⟩]

/-- The client sees that the file is not there as a whole. -/
theorem receive_cut_isSome_iff_shortened :
    ∃ c, (doSession [] shortened).cut = some c ∧ c.part.length = 2 ∧
      (receive ((doSession [] shortened).methods ++ [c.req.method])
        (doSession [] shortened).stream).isSome = false := by
  have hc : (doSession [] shortened).cut.any (fun c ↦ c.part.length = 2 ∧ c.req.method = .get) =
      true := by decide +kernel
  obtain ⟨c, hcut, hc⟩ := (Option.any_eq_true _ _).mp hc
  obtain ⟨hlength, hmethod⟩ := of_decide_eq_true hc
  have hstep : InStep (doSession [] shortened) := by
    rw [session_inStep_iff]
    decide +kernel
  refine ⟨c, hcut, hlength, Bool.eq_false_iff.mpr fun hsome ↦ ?_⟩
  have hhead := ((receive_cut_isSome_iff [] shortened c hcut hstep).mp hsome).1
  rw [hmethod] at hhead
  exact Verb.noConfusion hhead

end FileServer

end CppRepo
