import CppRepo.Http.ClientIo

/-!
# What a client can write into the environment

`init_env` rewrites the names of the headers into the map that holds the variables of the server
itself, and one of these, `HTTP_VERSION`, has the form of a rewritten header name. What protects
them is the order: the request line is written last, and the two variables it may leave unset
cannot be written by any header.

**Main result.** Two requests that differ in nothing but their headers get the same server
variables (`environment_eq_of_requestLine`). It compares two runs, so it follows from a description
of one: the environment is a list of assignments, and a variable has the value of its last one.
-/

namespace CppRepo

/-! ## Assignments in order

A map is written by a list of assignments, one after another. For what is read back only the last
assignment to a key counts, and if the keys are different each is the last one to its key. This
section is about any map. -/

section Assignments

variable {α β : Type*} [DecidableEq α] {env : AList fun _ : α ↦ β} {ps qs : List (α × β)} {k : α}
  {v : β}

/-- The map after the given assignments: a later one replaces an earlier one. -/
def assignAll (env : AList fun _ : α ↦ β) (ps : List (α × β)) : AList fun _ : α ↦ β :=
  ps.foldl (fun env p ↦ env.insert p.1 p.2) env

/-- The value of the last assignment to a key. -/
def lastAssigned (ps : List (α × β)) (k : α) : Option β :=
  (ps.filter fun p ↦ p.1 = k).getLast?.map Prod.snd

private theorem assignAll_append : assignAll env (ps ++ qs) = assignAll (assignAll env ps) qs :=
  List.foldl_append

private theorem lastAssigned_concat (p : α × β) :
    lastAssigned (ps ++ [p]) k = if p.1 = k then some p.2 else lastAssigned ps k := by
  rw [lastAssigned, lastAssigned, List.filter_append]
  by_cases h : p.1 = k
  · rw [if_pos h, List.filter_cons_of_pos (by simpa using h), List.filter_nil, List.getLast?_concat]
    rfl
  · rw [if_neg h, List.filter_cons_of_neg (by simpa using h), List.filter_nil, List.append_nil]

theorem lastAssigned_eq_none (h : ∀ p ∈ ps, p.1 ≠ k) : lastAssigned ps k = none := by
  have hfilter : (ps.filter fun p ↦ p.1 = k) = [] :=
    List.filter_eq_nil_iff.mpr fun p hp ↦ by simpa using h p hp
  rw [lastAssigned, hfilter]
  rfl

private theorem lastAssigned_ne_none {p : α × β} (hp : p ∈ ps) : lastAssigned ps p.1 ≠ none := by
  rw [lastAssigned, Ne, Option.map_eq_none_iff, List.getLast?_eq_none_iff]
  exact List.ne_nil_of_mem (List.mem_filter.mpr ⟨hp, by simp⟩)

theorem lastAssigned_of_mem (hps : (ps.map Prod.fst).Nodup) (h : (k, v) ∈ ps) :
    lastAssigned ps k = some v := by
  induction ps using List.reverseRecOn with
  | nil => exact absurd h List.not_mem_nil
  | append_singleton ps p ih =>
    rw [List.map_append, List.nodup_append] at hps
    rw [lastAssigned_concat]
    rcases List.mem_append.mp h with hmem | hlast
    · have hne : p.1 ≠ k := (hps.2.2 k (List.mem_map_of_mem hmem) p.1 (by simp)).symm
      rw [if_neg hne, ih hps.1 hmem]
    · rw [← List.mem_singleton.mp hlast, if_pos rfl]

/-- **What is read back.** A key has the value of its last assignment, or what it had before. -/
theorem lookup_assignAll (env : AList fun _ : α ↦ β) (ps : List (α × β)) (k : α) :
    (assignAll env ps).lookup k = (lastAssigned ps k).or (env.lookup k) := by
  induction ps using List.reverseRecOn with
  | nil => rfl
  | append_singleton ps p ih =>
    rw [assignAll_append, lastAssigned_concat]
    change ((assignAll env ps).insert p.1 p.2).lookup k = _
    by_cases h : p.1 = k
    · rw [if_pos h, ← h, AList.lookup_insert, Option.some_or]
    · rw [if_neg h, AList.lookup_insert_ne (Ne.symm h), ih]

end Assignments

namespace ClientIo

variable {ω : Type} {io : ClientIo ω} {k : Bytes}

/-! ## The environment as assignments

`headerKey` is the variable a header is written to, and `requestLine` the list of the other
assignments, in the order in which `init_env` makes them. With these two, `init_env` is
`assignAll`. -/

/-- The variable a header is written to. -/
def headerKey (f : Field) : Bytes :=
  if f.isNamed (ascii "Content-Length") then ascii "CONTENT_LENGTH"
  else if f.isNamed (ascii "Content-Type") then ascii "CONTENT_TYPE"
  else httpName f.name

private theorem addHeader_eq (env : EnvMap) (f : Field) :
    addHeader env f = env.insert (headerKey f) f.value := by
  rw [addHeader, headerKey]
  split_ifs <;> rfl

/-- What the headers write. -/
def headerLines (fields : List Field) : List (Bytes × Bytes) :=
  fields.map fun f ↦ (headerKey f, f.value)

theorem foldl_addHeader (env : EnvMap) (fields : List Field) :
    fields.foldl addHeader env = assignAll env (headerLines fields) := by
  rw [assignAll, headerLines, List.foldl_map]
  exact congrArg (fun step ↦ fields.foldl step env) (funext₂ addHeader_eq)

/-- What is written after the headers. -/
def requestLine (io : ClientIo ω) : List (Bytes × Bytes) :=
  let request := io.parser.message
  let uri := request.target.takeWhile (· ≠ 63)
  let portBuf := cString (snprintf 16 (decimal io.localEndpoint.port.toNat)).1
  [(ascii "HTTP_VERSION",
      decimal (request.version / 10) ++ ascii "." ++ decimal (request.version % 10)),
    (ascii "REQUEST_METHOD", request.method.methodString)]
  ++ (if uri.length < request.target.length then
      [(ascii "QUERY_STRING", request.target.drop (uri.length + 1))] else [])
  ++ [(ascii "SCRIPT_URI", uri), (ascii "REQUEST_URI", request.target),
    (ascii "SERVER_PORT", portBuf)]
  ++ (if io.isSsl then [(ascii "SERVER_PORT_SECURE", portBuf)] else [])
  ++ [(ascii "REMOTE_ADDR", io.remoteEndpoint.address)]

theorem addRequestLine_eq (io : ClientIo ω) (env : EnvMap) :
    io.addRequestLine env = assignAll env io.requestLine := by
  rw [addRequestLine, requestLine]
  split_ifs <;> rfl

/-- The environment that `init_env` leaves. -/
def environment (io : ClientIo ω) : EnvMap :=
  match initEnv io with
  | .ok _ io => io.envMap
  | .error _ io => io.envMap

theorem environment_eq (io : ClientIo ω) : io.environment
    = assignAll (assignAll io.envMap (headerLines io.parser.message.fields)) io.requestLine := by
  rw [← addRequestLine_eq, ← foldl_addHeader]
  rfl

/-! ## Which variables headers can write

A header is written to one of the two variables that describe the body, or to a variable whose name
begins with `HTTP_`. All other variables are out of its reach. -/

/-- The names that headers are written to. -/
def IsHeaderKey (k : Bytes) : Prop :=
  k = ascii "CONTENT_LENGTH" ∨ k = ascii "CONTENT_TYPE" ∨ ascii "HTTP_" <+: k

instance : DecidablePred IsHeaderKey := fun _ ↦ inferInstanceAs (Decidable (_ ∨ _))

theorem prefix_httpName (name : Bytes) : ascii "HTTP_" <+: httpName name := by
  have hchars : ∀ c ∈ ascii "HTTP_", decide (c ≠ 0) = true := by decide +kernel
  rw [httpName, cString, List.takeWhile_append_of_pos hchars]
  exact List.prefix_append _ _

private theorem isHeaderKey_headerKey (f : Field) : IsHeaderKey (headerKey f) := by
  rw [headerKey]
  split_ifs
  · exact Or.inl rfl
  · exact Or.inr (Or.inl rfl)
  · exact Or.inr (Or.inr (prefix_httpName f.name))

private theorem lastAssigned_headerLines_eq_none (fields : List Field) (hk : ¬IsHeaderKey k) :
    lastAssigned (headerLines fields) k = none := by
  refine lastAssigned_eq_none fun p hp hpk ↦ hk ?_
  obtain ⟨f, -, rfl⟩ := List.mem_map.mp hp
  exact hpk ▸ isHeaderKey_headerKey f

theorem headerKey_eq_contentLength (f : Field) :
    headerKey f = ascii "CONTENT_LENGTH" ↔ f.isNamed (ascii "Content-Length") = true := by
  have hhttp : httpName f.name ≠ ascii "CONTENT_LENGTH" := fun h ↦
    absurd (h ▸ prefix_httpName f.name) (by decide)
  rw [headerKey]
  split_ifs with hlength htype
  · exact iff_of_true rfl hlength
  · exact iff_of_false (by decide) hlength
  · exact iff_of_false hhttp hlength

theorem headerKey_eq_contentType (f : Field) :
    headerKey f = ascii "CONTENT_TYPE" ↔ f.isNamed (ascii "Content-Type") = true := by
  have hhttp : httpName f.name ≠ ascii "CONTENT_TYPE" := fun h ↦
    absurd (h ▸ prefix_httpName f.name) (by decide)
  rw [headerKey]
  split_ifs with hlength htype
  · refine iff_of_false (by decide) fun htype ↦ ?_
    rw [Field.isNamed, decide_eq_true_iff] at hlength htype
    exact absurd (hlength.symm.trans htype) (by decide)
  · exact iff_of_true rfl htype
  · exact iff_of_false hhttp htype

/-- The last header written to a variable, found among the headers of one name. -/
theorem lastAssigned_headerLines {key name : Bytes} (fields : List Field)
    (hkey : ∀ f, headerKey f = key ↔ f.isNamed name = true) :
    lastAssigned (headerLines fields) key
      = ((fields.filter fun f ↦ f.isNamed name).map Field.value).getLast? := by
  have hfilter : ((headerLines fields).filter fun p ↦ p.1 = key)
      = (fields.filter fun f ↦ f.isNamed name).map fun f ↦ (headerKey f, f.value) := by
    rw [headerLines, List.filter_map]
    congr 1
    refine List.filter_congr fun f _ ↦ ?_
    rw [Function.comp_apply, Bool.eq_iff_iff, decide_eq_true_iff]
    exact hkey f
  rw [lastAssigned, hfilter, List.getLast?_map, List.getLast?_map, Option.map_map]
  rfl

/-! ## The variables of the server

Of the variables of the server only one begins with `HTTP_`, and this one is written on every
request. Those that are written only sometimes, the query string and the port of a secure
connection, do not. -/

/-- What describes the request line and the connection. -/
def serverVariables : List Bytes :=
  [ascii "REQUEST_METHOD", ascii "SCRIPT_URI", ascii "QUERY_STRING", ascii "REQUEST_URI",
    ascii "HTTP_VERSION", ascii "SERVER_PORT", ascii "SERVER_PORT_SECURE", ascii "REMOTE_ADDR"]

/-- The names written after the headers: two of them only with a query, or over SSL. -/
def lineKeys (query secure : Bool) : List Bytes :=
  [ascii "HTTP_VERSION", ascii "REQUEST_METHOD"]
  ++ (if query then [ascii "QUERY_STRING"] else [])
  ++ [ascii "SCRIPT_URI", ascii "REQUEST_URI", ascii "SERVER_PORT"]
  ++ (if secure then [ascii "SERVER_PORT_SECURE"] else [])
  ++ [ascii "REMOTE_ADDR"]

private theorem map_fst_requestLine (io : ClientIo ω) : io.requestLine.map Prod.fst = lineKeys
    ((io.parser.message.target.takeWhile (· ≠ 63)).length < io.parser.message.target.length)
    io.isSsl := by
  rw [requestLine, lineKeys]
  simp only [List.map_append, decide_eq_true_eq, apply_ite (List.map Prod.fst), List.map_cons,
    List.map_nil]

theorem nodup_requestLine (io : ClientIo ω) : (io.requestLine.map Prod.fst).Nodup := by
  have hall : ∀ query secure, (lineKeys query secure).Nodup := by decide +kernel
  exact io.map_fst_requestLine ▸ hall _ _

theorem mem_serverVariables_of_mem_requestLine {p : Bytes × Bytes} (hp : p ∈ io.requestLine) :
    p.1 ∈ serverVariables := by
  have hall : ∀ query secure, lineKeys query secure ⊆ serverVariables := by decide +kernel
  exact hall _ _ (io.map_fst_requestLine ▸ List.mem_map_of_mem hp)

private theorem mem_requestLine_of_isHeaderKey (io : ClientIo ω) (hk : k ∈ serverVariables)
    (hh : IsHeaderKey k) :
    ∃ p ∈ io.requestLine, p.1 = k := by
  have hversion : k = ascii "HTTP_VERSION" := by
    have hall : ∀ k ∈ serverVariables, IsHeaderKey k → k = ascii "HTTP_VERSION" := by decide
    exact hall k hk hh
  exact ⟨_, List.mem_append_left _ (List.mem_append_left _ (List.mem_append_left _
    (List.mem_append_left _ List.mem_cons_self))), hversion.symm⟩

/-- **One run.** In a fresh client the server variables come from the request line alone. -/
theorem lookup_serverVariable (hio : io.envMap = ∅) (hk : k ∈ serverVariables) :
    io.environment.lookup k = lastAssigned io.requestLine k := by
  rw [environment_eq, hio, lookup_assignAll, lookup_assignAll, AList.lookup_empty, Option.or_none]
  rcases hline : lastAssigned io.requestLine k with - | v
  · have hnot : ¬IsHeaderKey k := fun hh ↦ by
      obtain ⟨p, hp, rfl⟩ := io.mem_requestLine_of_isHeaderKey hk hh
      exact lastAssigned_ne_none hp hline
    rw [Option.none_or, lastAssigned_headerLines_eq_none _ hnot]
  · rfl

theorem lookup_of_notMem_serverVariables (hio : io.envMap = ∅) (hk : k ∉ serverVariables) :
    io.environment.lookup k = lastAssigned (headerLines io.parser.message.fields) k := by
  have hline : lastAssigned io.requestLine k = none := lastAssigned_eq_none fun p hp hpk ↦
    hk (hpk ▸ mem_serverVariables_of_mem_requestLine hp)
  rw [environment_eq, hio, lookup_assignAll, lookup_assignAll, AList.lookup_empty, Option.or_none,
    hline, Option.none_or]

private theorem isHeaderKey_of_mem (hio : io.envMap = ∅) (hk : k ∉ serverVariables)
    (hmem : k ∈ io.environment) : IsHeaderKey k := by
  rw [← AList.lookup_isSome, lookup_of_notMem_serverVariables hio hk] at hmem
  by_contra hnot
  rw [lastAssigned_headerLines_eq_none _ hnot] at hmem
  exact absurd hmem (by decide)

private theorem lookup_content {key name : Bytes} (hio : io.envMap = ∅) (hk : key ∉ serverVariables)
    (hkey : ∀ f, headerKey f = key ↔ f.isNamed name = true) :
    io.environment.lookup key
      = ((io.parser.message.fields.filter fun f ↦ f.isNamed name).map Field.value).getLast? := by
  rw [lookup_of_notMem_serverVariables hio hk, lastAssigned_headerLines _ hkey]

/-! ## The target and its two parts

The target is cut at its first question mark. The part before the mark is always written; the part
behind it only if there is a mark, so an empty query and no query are told apart. -/

private theorem target_eq_append {target : Bytes}
    (h : (target.takeWhile (· ≠ 63)).length < target.length) :
    target = target.takeWhile (· ≠ 63) ++ ascii "?"
      ++ target.drop ((target.takeWhile (· ≠ 63)).length + 1) := by
  induction target with
  | nil => exact absurd h (by simp)
  | cons c target ih =>
    by_cases hc : c = 63
    · subst hc
      rfl
    · rw [List.takeWhile_cons_of_pos (by simpa using hc)] at h ⊢
      simpa using ih (by simpa using h)

private theorem takeWhile_eq_target {target : Bytes}
    (h : ¬(target.takeWhile (· ≠ 63)).length < target.length) :
    target.takeWhile (· ≠ 63) = target :=
  (List.takeWhile_prefix _).eq_of_length_le (not_lt.mp h)

private theorem lookup_requestUri (hio : io.envMap = ∅) :
    io.environment.lookup (ascii "REQUEST_URI") = some io.parser.message.target := by
  rw [lookup_serverVariable hio (by simp [serverVariables])]
  exact lastAssigned_of_mem io.nodup_requestLine (by simp [requestLine])

private theorem lookup_scriptUri (hio : io.envMap = ∅) : io.environment.lookup (ascii "SCRIPT_URI")
    = some (io.parser.message.target.takeWhile (· ≠ 63)) := by
  rw [lookup_serverVariable hio (by simp [serverVariables])]
  exact lastAssigned_of_mem io.nodup_requestLine (by simp [requestLine])

private theorem lookup_queryString (hio : io.envMap = ∅) :
    io.environment.lookup (ascii "QUERY_STRING")
      = if (io.parser.message.target.takeWhile (· ≠ 63)).length < io.parser.message.target.length
        then some (io.parser.message.target.drop
          ((io.parser.message.target.takeWhile (· ≠ 63)).length + 1))
        else none := by
  rw [lookup_serverVariable hio (by simp [serverVariables])]
  split_ifs with h
  · refine lastAssigned_of_mem io.nodup_requestLine ?_
    rw [requestLine, if_pos h]
    simp
  · refine lastAssigned_eq_none fun p hp hpk ↦ ?_
    have hall : ∀ secure, ascii "QUERY_STRING" ∉ lineKeys false secure := by decide +kernel
    have hmem : p.1 ∈ lineKeys false io.isSsl := by
      have hkeys := io.map_fst_requestLine
      rw [decide_eq_false h] at hkeys
      exact hkeys ▸ List.mem_map_of_mem hp
    exact hall _ (hpk ▸ hmem)

private theorem exists_scriptUri (hio : io.envMap = ∅) :
    ∃ script, io.environment.lookup (ascii "SCRIPT_URI") = some script ∧ 63 ∉ script ∧
      io.environment.lookup (ascii "REQUEST_URI")
        = match io.environment.lookup (ascii "QUERY_STRING") with
          | none => some script
          | some query => some (script ++ ascii "?" ++ query) := by
  refine ⟨_, lookup_scriptUri hio, fun hmem ↦ ?_, ?_⟩
  · exact absurd (List.mem_takeWhile_imp hmem) (by decide)
  · rw [lookup_requestUri hio, lookup_queryString hio]
    split_ifs with h
    · exact congrArg some (target_eq_append h)
    · exact congrArg some (takeWhile_eq_target h).symm

/-! ## Two runs

Both requests are described by the same lists, but for the headers; so the variables of the server
agree, and any other variable of one of the runs is one that headers are written to. -/

/-- **What headers can do to the environment.** Two requests with the same request line, on
connections with the same ends, get the same server variables whatever their headers are. All other
variables have the names headers are written to, and the two that describe the body depend on the
headers of their own names. -/
theorem environment_eq_of_requestLine (parser parser' : Parser) (isSsl : Bool)
    (localEndpoint remoteEndpoint : Endpoint) (now now' : Option Tm)
    (array array' : Vector UInt8 txbufSize.val) (sink sink' : ω)
    (hmethod : parser.message.method = parser'.message.method)
    (htarget : parser.message.target = parser'.message.target)
    (hversion : parser.message.version = parser'.message.version) :
    let env := (new parser isSsl localEndpoint remoteEndpoint now array sink).environment
    let env' := (new parser' isSsl localEndpoint remoteEndpoint now' array' sink').environment
    (∀ k ∈ serverVariables, env.lookup k = env'.lookup k) ∧
    (∀ k ∈ env, k ∉ serverVariables →
      k = ascii "CONTENT_LENGTH" ∨ k = ascii "CONTENT_TYPE" ∨ ascii "HTTP_" <+: k) ∧
    (∀ key name, (key, name) ∈ [(ascii "CONTENT_LENGTH", ascii "Content-Length"),
        (ascii "CONTENT_TYPE", ascii "Content-Type")] →
      (parser.message.fields.filter fun f ↦ f.isNamed name).map Field.value
        = (parser'.message.fields.filter fun f ↦ f.isNamed name).map Field.value →
      env.lookup key = env'.lookup key) ∧
    ∃ script, env.lookup (ascii "SCRIPT_URI") = some script ∧ 63 ∉ script ∧
      env.lookup (ascii "REQUEST_URI")
        = match env.lookup (ascii "QUERY_STRING") with
          | none => some script
          | some query => some (script ++ ascii "?" ++ query) := by
  intro env env'
  refine ⟨fun k hk ↦ ?_, fun k hmem hk ↦ isHeaderKey_of_mem rfl hk hmem, ?_, exists_scriptUri rfl⟩
  · have hline : requestLine (new parser isSsl localEndpoint remoteEndpoint now array sink)
        = requestLine (new parser' isSsl localEndpoint remoteEndpoint now' array' sink') := by
      simp only [requestLine, new, hmethod, htarget, hversion]
      rfl
    calc env.lookup k = lastAssigned (requestLine _) k := lookup_serverVariable rfl hk
      _ = lastAssigned (requestLine _) k := by rw [hline]
      _ = env'.lookup k := (lookup_serverVariable rfl hk).symm
  · intro key name hpair hfields
    -- No assignment of the request line is to such a key, so the last header of its name decides.
    have hnot : key ∉ serverVariables := by
      rcases List.mem_cons.mp hpair with h | h
      · rw [(Prod.mk.inj h).1]
        decide +kernel
      · rw [(Prod.mk.inj (List.mem_singleton.mp h)).1]
        decide +kernel
    have hkey : ∀ f, headerKey f = key ↔ f.isNamed name = true := by
      rcases List.mem_cons.mp hpair with h | h
      · obtain ⟨rfl, rfl⟩ := Prod.mk.inj h
        exact headerKey_eq_contentLength
      · obtain ⟨rfl, rfl⟩ := Prod.mk.inj (List.mem_singleton.mp h)
        exact headerKey_eq_contentType
    have hlast : env.lookup key
        = ((parser.message.fields.filter fun f ↦ f.isNamed name).map Field.value).getLast? :=
      lookup_content rfl hnot hkey
    have hlast' : env'.lookup key
        = ((parser'.message.fields.filter fun f ↦ f.isNamed name).map Field.value).getLast? :=
      lookup_content rfl hnot hkey
    rw [hlast, hlast', hfields]

/-- A request with a header that is rewritten to the name of a server variable. -/
def versionHeader : Message where
  method := .get
  target := ascii "/"
  version := 11
  fields := [⟨ascii "Version", ascii "9.9"⟩]
  keepAlive := true
  contentLength_ok f hf hname := by
    rw [List.mem_singleton.mp hf] at hname
    exact absurd hname (by decide +kernel)

theorem environment_eq_of_requestLine_versionHeader :
    let array := Vector.replicate txbufSize.val 0
    let bare : Parser := ⟨.bare .get, ⟨[], true⟩, []⟩
    let header : Parser := ⟨versionHeader, ⟨[], true⟩, []⟩
    let io := new header false ⟨[], 0⟩ ⟨[], 0⟩ none array ()
    let io' := new bare false ⟨[], 0⟩ ⟨[], 0⟩ none array ()
    httpName (ascii "Version") = ascii "HTTP_VERSION" ∧
      io.environment.lookup (ascii "HTTP_VERSION")
        = io'.environment.lookup (ascii "HTTP_VERSION") := by
  intro array bare header io io'
  have hruns := environment_eq_of_requestLine header bare false ⟨[], 0⟩ ⟨[], 0⟩ none none
    array array () () rfl rfl rfl
  exact ⟨by decide +kernel, hruns.1 _ (by simp [serverVariables])⟩

end ClientIo

end CppRepo
