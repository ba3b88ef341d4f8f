import CppRepo.Http.Serving

/-!
# The announced length of an upload

The parser accepts as a `Content-Length` every numeral of a 64-bit number, since the limit of the
body is the largest `size_t`. `putobj` takes it through a string, `std::stoi`, an `int`, an
increment and two conversions to `size_t`.

`putobjExact` is what this is meant to come to: `putobj` with the announced length as a natural
number throughout. The two are the same program exactly for lengths below `INT_MAX`. At `INT_MAX`
the increment overflows, and above it the conversion throws.

## Why the limit is exact

Below the limit each of the conversions is the identity on the number, so the two programs are equal
step by step, whatever else happens. At and above the limit there is a request on which they differ:
one whose body arrives, whose writes succeed and for which there is memory. There `putobj` throws,
or its increment is undefined, and `putobjExact` answers.
-/

namespace CppRepo

variable {m : Message} {text : Bytes} {len : ℕ}

/-- `putobj` for an announced length, without a bound on it. The array has one character more than
the length, so the terminating NUL goes inside it. -/
def putobjExact (allocates : ℕ → Bool) (len : ℕ) : Method StreamIo ℤ := do
  let _ ← StreamIo.client.send100Continue
  if ¬allocates (len + 1) then
    throw (.thrown .badAlloc)
  let _ ← StreamIo.client.recvBody (UInt64.ofNat len)
  let _ ← StreamIo.client.sendStatus 200 (ascii "OK")
  let _ ← StreamIo.client.sendHeader (ascii "Content-Length") (ascii "0")
  let _ ← StreamIo.client.completeHeader
  let _ ← StreamIo.client.completeRequest
  return 200

/-- A request is served as if `putobj` took the announced length as it is, whatever it meets. -/
def ServesExactly (m : Message) (len : ℕ) : Prop :=
  ∀ (x : Exchange) (localEndpoint : Endpoint) (stream : Stream),
    withClient (x.clientIo m localEndpoint) (do
        let _ ← ClientIo.initEnv
        process x.allocates m.method 0) stream
      = withClient (x.clientIo m localEndpoint) (do
        let _ ← ClientIo.initEnv
        putobjExact x.allocates len) stream

/-- The arithmetic of `putobj` is exact for an upload that announces this length. -/
structure ExactArithmetic (m : Message) (len : ℕ) : Prop where
  /-- The conversion succeeds, and gives the announced length. -/
  needLen : ∀ text, m.contentLengthText = some text → stoi text = .ok len
  /-- The increment does not overflow. -/
  size : addInt len 1 = pure ((len + 1 : ℕ) : ℤ)
  /-- The size given to `new[]` is not negative, and is the length and one more. -/
  newCharArray : ∀ allocates, newCharArray allocates (len + 1 : ℕ)
    = if allocates (len + 1) then pure () else throw (.thrown .badAlloc)
  /-- The limit given to `recv_body` is the length. -/
  max : (UInt64.ofInt (len : ℤ)).toNat = len
  /-- So the request is served with the length as it is. -/
  serves : ServesExactly m len

/-! ## One step of the arithmetic each

The text of the length is in the environment when `putobj` begins, and the interim response,
which is sent first, leaves it there. Each later step is compared with the same step on natural
numbers. -/

private theorem addInt_one (h : len < intMax) : addInt len 1 = pure ((len + 1 : ℕ) : ℤ) := by
  rw [addInt, if_pos (by omega), Nat.cast_succ]

private theorem newCharArray_natCast (allocates : ℕ → Bool) (n : ℕ) : newCharArray allocates n
    = if allocates n then pure () else throw (.thrown .badAlloc) := by
  rw [newCharArray, if_neg (by omega), Int.toNat_natCast]

private theorem stoiThrowing_of_ok {n : ℤ} (h : stoi text = .ok n) :
    stoiThrowing text = pure n := by
  rw [stoiThrowing, h]

private theorem ofInt_natCast (h : len ≤ intMax) : UInt64.ofInt (len : ℤ) = UInt64.ofNat len := by
  have hlt : len < 2 ^ 64 := h.trans_lt (by decide)
  rw [← UInt64.toNat_inj, toNat_ofInt h, UInt64.toNat_ofNat_of_lt' hlt]

private theorem Message.exists_text (h : m.contentLength = some len) :
    ∃ text, m.contentLengthText = some text ∧ readNumeral 10 text = some (len, []) := by
  rcases htext : m.contentLengthText with - | text
  · exact absurd ((contentLength_of_text_none htext).symm.trans h) (by simp)
  · obtain ⟨len', hread, hlen'⟩ := contentLength_of_text htext
    obtain rfl := Option.some_inj.mp (hlen'.symm.trans h)
    exact ⟨text, rfl, hread⟩

private theorem exists_initEnv (x : Exchange) (m : Message) (localEndpoint : Endpoint)
    (stream : Stream) : ∃ io, ClientIo.initEnv (x.clientIo m localEndpoint stream) = .ok 0 io ∧
      io.getVal (ascii "CONTENT_LENGTH") = m.contentLengthText ∧ io.txbuf.pptr = 0 ∧
      io.txbuf.sink = stream ∧ io.parser.body = x.body := by
  refine ⟨_, rfl, ?_, rfl, rfl, rfl⟩
  exact (ClientIo.lookup_addRequestLine _ _).trans (ClientIo.lookup_foldl_addHeader m.fields)

private theorem ensures_send100Continue_envMap (io : StreamIo) : Ensures
    StreamIo.client.send100Continue io (fun _ t ↦ t.envMap = io.envMap) fun _ _ ↦ True := by
  have hline : ClientIo.LineFits .send100Continue := trivial
  change Ensures ((ClientIo.client Stream.sink StreamIo.recvBody).invoke .send100Continue) io _ _
  rw [ClientIo.ensures_invoke_iff rfl hline, Ensures]
  split <;> trivial

/-- **`putobj`** for a length below the limit. -/
theorem putobj_eq {io : StreamIo} (allocates : ℕ → Bool)
    (htext : io.getVal (ascii "CONTENT_LENGTH") = some text)
    (hread : readNumeral 10 text = some (len, [])) (hlt : len < intMax) :
    putobj allocates io = putobjExact allocates len io := by
  have hstoi : stoi text = .ok (len : ℤ) := by
    rw [stoi_of_readNumeral hread, if_pos hlt.le]
  have henv := ensures_send100Continue_envMap io
  rw [putobj, putobjExact]
  rcases hsend : StreamIo.client.send100Continue io with ⟨n, t⟩ | ⟨e, t⟩
  · have htext' : t.getVal (ascii "CONTENT_LENGTH") = some text := by
      rw [ClientIo.getVal, henv.of_ok hsend]
      exact htext
    rw [bind_of_ok hsend, bind_of_ok hsend, get_bind, htext']
    simp only []
    rw [stoiThrowing_of_ok hstoi, pure_bind, addInt_one hlt, pure_bind, newCharArray_natCast]
    by_cases halloc : allocates (len + 1) = true
    · have hstore : ¬((len : ℤ) < 0 ∨ ((len + 1 : ℕ) : ℤ) ≤ len) := by omega
      rw [if_pos halloc, if_neg (not_not.mpr halloc), pure_bind, ofInt_natCast hlt.le]
      simp only [if_neg hstore]
    · rw [if_neg halloc, if_pos halloc]
      rfl
  · rw [bind_of_error hsend, bind_of_error hsend]

theorem ensures_putobjExact {io : StreamIo} {allocates : ℕ → Bool}
    (hpptr : io.txbuf.pptr = 0)
    (hwrites : io.txbuf.sink.Reliable) (hdone : io.parser.body.done = true)
    (halloc : allocates (len + 1) = true) :
    Ensures (putobjExact allocates len) io (fun _ _ ↦ True) fun _ _ ↦ False := by
  have hcontinue := StreamIo.ensures_invoke_flushed io (c := .send100Continue) rfl trivial rfl
  rw [ClientIo.generated_send100Continue, hpptr] at hcontinue
  rw [putobjExact, ensures_bind]
  refine (hcontinue (by decide)).mono ?_ fun _ _ hfail ↦ hfail.1 (hwrites _)
  rintro _ _ ⟨_, b, rfl, hzero, hsink⟩
  rw [if_neg (not_not.mpr halloc), ensures_bind]
  refine (ensures_recvBody { io with txbuf := b } (UInt64.ofNat len)).mono ?_ ?_
  · rintro _ _ ⟨_, reads, body, rfl, _⟩
    refine (ensures_okCalls _ hzero).mono (fun _ _ _ ↦ trivial) fun _ _ hfail ↦ hfail.1 ?_
    simp only [hsink, Stream.outcome_wrote]
    exact hwrites _
  · exact fun _ _ hfail ↦ hfail.1 (brings_of_done hdone)

/-! ## The limit

`Exchange.untroubled` is the request with nothing else to fail. It tells the two programs apart for
every length that is not below the limit, so the bound is not only enough but necessary. -/

/-- An exchange in which nothing but the request can fail. -/
def Exchange.untroubled (m : Message) : Exchange where
  header := .parsed m
  localEndpoint := .ok ⟨[], 0⟩
  remoteEndpoint := ⟨[], 0⟩
  body := ⟨[], true⟩
  reads := []
  now := none
  allocates _ := true

/-- **The two programs** do the same for lengths below `INT_MAX`, and for no other: there `putobj`
throws where nothing else does. -/
theorem servesExactly_iff (hup : m.isUpload = true) (hlen : m.contentLength = some len) :
    ServesExactly m len ↔ len < intMax := by
  constructor
  · intro h
    obtain ⟨io, hinit, _, hpptr, hsink, hbody⟩ :=
      exists_initEnv (.untroubled m) m ⟨[], 0⟩ .fresh
    have hwrites : io.txbuf.sink.Reliable := by
      rw [hsink]
      exact fun _ ↦ rfl
    have hdone : io.parser.body.done = true := by
      rw [hbody]
      rfl
    obtain ⟨ret, t, hexact, _⟩ := (ensures_putobjExact hpptr hwrites hdone
      (rfl : (Exchange.untroubled m).allocates (len + 1) = true)).exists_ok
    have hsame := h (.untroubled m) ⟨[], 0⟩ .fresh
    have hok : withClient ((Exchange.untroubled m).clientIo m ⟨[], 0⟩) (do
        let _ ← ClientIo.initEnv
        putobjExact (Exchange.untroubled m).allocates len) .fresh
        = .ok (ret, t.parser) t.txbuf.sink := by
      rw [withClient, bind_of_ok hinit, hexact]
    have hserves := (ensures_serve (.untroubled m) m ⟨[], 0⟩ .fresh).of_ok (hsame.trans hok)
    exact ((hserves.2.1 hup).2 len hlen).1
  · intro hlt x localEndpoint stream
    obtain ⟨text, htext, hread⟩ := Message.exists_text hlen
    obtain ⟨io, hinit, hval, _⟩ := exists_initEnv x m localEndpoint stream
    rw [process_of_isUpload (of_decide_eq_true hup), withClient, withClient, bind_of_ok hinit,
      bind_of_ok hinit, putobj_eq x.allocates (hval.trans htext) hread hlt]

/-- **The limit of an upload.** The arithmetic of `putobj` is exact if and only if the announced
length is below `INT_MAX`. -/
theorem exactArithmetic_iff (hup : m.isUpload = true) (hlen : m.contentLength = some len) :
    ExactArithmetic m len ↔ len < intMax := by
  obtain ⟨text, htext, hread⟩ := Message.exists_text hlen
  constructor
  · exact fun h ↦ (servesExactly_iff hup hlen).mp h.serves
  · intro hlt
    exact {
      needLen := fun text' htext' ↦ by
        obtain rfl := Option.some_inj.mp (htext'.symm.trans htext)
        rw [stoi_of_readNumeral hread, if_pos hlt.le]
      size := addInt_one hlt
      newCharArray := fun allocates ↦ newCharArray_natCast allocates (len + 1)
      max := toNat_ofInt hlt.le
      serves := (servesExactly_iff hup hlen).mpr hlt }

private theorem readNumeral_numeral_ten (n : ℕ) : readNumeral 10 (numeral 10 n) = some (n, []) := by
  have hstops : StopsDigits 10 [] := fun _ hc ↦ absurd hc (by simp)
  simpa using readNumeral_numeral (by omega) (by omega) n hstops

/-- An upload with nothing but its length. -/
def announcing (n : ℕ) (hn : n < 2 ^ 64) : Message where
  method := .put
  target := ascii "/"
  version := 11
  fields := [⟨ascii "Content-Length", numeral 10 n⟩]
  keepAlive := true
  contentLength_ok f hf _ := by
    obtain rfl := List.mem_singleton.mp hf
    exact ⟨n, hn, readNumeral_numeral_ten n⟩

private theorem contentLength_announcing (n : ℕ) (hn : n < 2 ^ 64) :
    (announcing n hn).contentLength = some n := by
  have htext : (announcing n hn).contentLengthText = some (numeral 10 n) := rfl
  rw [Message.contentLength, htext, Option.bind_some, readNumeral_numeral_ten]
  rfl

/-- The largest length for which it is exact. -/
theorem exactArithmetic_iff_largest :
    ExactArithmetic (announcing 2147483646 (by norm_num)) 2147483646 :=
  (exactArithmetic_iff rfl (contentLength_announcing _ _)).mpr (by decide)

/-- One byte more, and the increment is undefined. -/
theorem announcing_intMax_overflows :
    (announcing 2147483647 (by norm_num)).contentLength = some 2147483647 ∧
    addInt 2147483647 1 .bare = .error .undefinedBehaviour .bare ∧
    ¬ExactArithmetic (announcing 2147483647 (by norm_num)) 2147483647 := by
  have hadd : addInt 2147483647 1 .bare = .error .undefinedBehaviour .bare := rfl
  refine ⟨contentLength_announcing _ _, hadd, fun h ↦ ?_⟩
  exact absurd ((congrFun h.size .bare).symm.trans hadd) (by simp [pure, EStateM.pure])

end CppRepo
