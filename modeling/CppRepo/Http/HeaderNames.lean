import CppRepo.Http.Environment

/-!
# Headers that share a variable

`init_env` puts the name of a header into upper case and reads dashes as underscores. A token may
have both, so `X-User` and `X_User` are two names, and both are written to `HTTP_X_USER`: the one
that comes last in the request is what the handler sees.

Apart from this the names are kept apart. Two headers share a variable exactly if their names have
the same spelling, which is what is left of a name after the rewriting; the two names that have a
variable of their own are compared without regard to case only.

## Where tokens matter

A variable is named by a C string, so a name with a NUL in it is cut off there, and then many names
have one variable. The parser accepts tokens only, which have no NUL, and rewriting does not make
one. For tokens the name of the variable has the whole spelling in it, and it can be compared with
others.
-/

namespace CppRepo

namespace ClientIo

variable {ω : Type} {f g : Field} {name : Bytes}

/-! ## Tokens

A token is a name that the parser accepts. Its `spelling` is what the rewriting leaves of it, and
`SameVariable` says in terms of names when two headers meet. -/

/-- A character of a token. -/
def isTokenChar (c : UInt8) : Bool :=
  (48 ≤ c && c ≤ 57) || (65 ≤ c && c ≤ 90) || (97 ≤ c && c ≤ 122)
    || (ascii "!#$%&'*+-.^_`|~").contains c

/-- A valid name of a header. -/
def IsToken (name : Bytes) : Prop := name ≠ [] ∧ ∀ c ∈ name, isTokenChar c = true

instance : Decidable (IsToken name) := inferInstanceAs (Decidable (_ ∧ _))

/-- The name in upper case with dashes as underscores. -/
def spelling (name : Bytes) : Bytes := name.map fun c ↦ if c = 45 then 95 else toupper c

/-- The header has no variable of its own. -/
def IsPlain (f : Field) : Prop :=
  f.isNamed (ascii "Content-Length") = false ∧ f.isNamed (ascii "Content-Type") = false

instance : Decidable (IsPlain f) := inferInstanceAs (Decidable (_ ∧ _))

/-- The headers are both named `Content-Length`, both named `Content-Type`, or spelled the same. -/
def SameVariable (f g : Field) : Prop :=
  f.isNamed (ascii "Content-Length") = true ∧ g.isNamed (ascii "Content-Length") = true ∨
    f.isNamed (ascii "Content-Type") = true ∧ g.isNamed (ascii "Content-Type") = true ∨
      IsPlain f ∧ IsPlain g ∧ spelling f.name = spelling g.name

/-! ## The variable of a token

The two exceptional names are looked for first, so a header that is plain is written under its
spelling, and one that is not has a variable without the prefix. The two kinds cannot meet. -/

private theorem toupper_ne_zero {c : UInt8} (hc : c ≠ 0) : toupper c ≠ 0 := by
  have hall : ∀ c : UInt8, c ≠ 0 → toupper c ≠ 0 := by decide +kernel
  exact hall c hc

private theorem ne_zero_of_mem_spelling (hname : IsToken name) {c : UInt8} (hc : c ∈ spelling name)
    : c ≠ 0 := by
  obtain ⟨d, hd, rfl⟩ := List.mem_map.mp hc
  have hzero : d ≠ 0 := by
    rintro rfl
    exact absurd (hname.2 0 hd) (by decide)
  split_ifs
  · decide
  · exact toupper_ne_zero hzero

private theorem httpName_of_isToken (hname : IsToken name) :
    httpName name = ascii "HTTP_" ++ spelling name := by
  have hself : cString (ascii "HTTP_" ++ spelling name) = ascii "HTTP_" ++ spelling name := by
    have hliteral : ∀ c ∈ ascii "HTTP_", c ≠ 0 := by decide +kernel
    exact cString_eq_self (List.forall_mem_append.mpr
      ⟨hliteral, fun c hc ↦ ne_zero_of_mem_spelling hname hc⟩)
  exact hself

private theorem headerKey_of_isPlain (hf : IsPlain f) : headerKey f = httpName f.name := by
  rw [headerKey, if_neg (Bool.eq_false_iff.mp hf.1), if_neg (Bool.eq_false_iff.mp hf.2)]

private theorem isPlain_of_headerKey {k : Bytes} (hk : ascii "HTTP_" <+: k) (hf : headerKey f = k) :
    IsPlain f := by
  constructor
  · refine Bool.eq_false_iff.mpr fun hlength ↦ ?_
    rw [← hf, (headerKey_eq_contentLength f).mpr hlength] at hk
    exact absurd hk (by decide)
  · refine Bool.eq_false_iff.mpr fun htype ↦ ?_
    rw [← hf, (headerKey_eq_contentType f).mpr htype] at hk
    exact absurd hk (by decide)

private theorem headerKey_eq_httpName_iff (hf : IsToken f.name) (hname : IsToken name) :
    headerKey f = httpName name ↔ IsPlain f ∧ spelling f.name = spelling name := by
  constructor
  · intro h
    have hplain := isPlain_of_headerKey (prefix_httpName name) h
    rw [headerKey_of_isPlain hplain, httpName_of_isToken hf, httpName_of_isToken hname] at h
    exact ⟨hplain, List.append_cancel_left h⟩
  · rintro ⟨hplain, hspelling⟩
    rw [headerKey_of_isPlain hplain, httpName_of_isToken hf, httpName_of_isToken hname, hspelling]

private theorem isNamed_contentType_of_contentLength (h : f.isNamed (ascii "Content-Length") = true)
    : f.isNamed (ascii "Content-Type") = false := by
  refine Bool.eq_false_iff.mpr fun htype ↦ ?_
  rw [Field.isNamed, decide_eq_true_iff] at h htype
  exact absurd (h.symm.trans htype) (by decide)

/-- **Two headers.** -/
theorem headerKey_eq_iff (hf : IsToken f.name) (hg : IsToken g.name) :
    headerKey f = headerKey g ↔ SameVariable f g := by
  by_cases hlength : g.isNamed (ascii "Content-Length") = true
  · have htype := isNamed_contentType_of_contentLength hlength
    rw [(headerKey_eq_contentLength g).mpr hlength, headerKey_eq_contentLength, SameVariable,
      IsPlain, IsPlain, hlength, htype]
    simp
  · by_cases htype : g.isNamed (ascii "Content-Type") = true
    · rw [(headerKey_eq_contentType g).mpr htype, headerKey_eq_contentType, SameVariable, IsPlain,
        IsPlain, Bool.eq_false_iff.mpr hlength, htype]
      simp
    · have hplain : IsPlain g := ⟨Bool.eq_false_iff.mpr hlength, Bool.eq_false_iff.mpr htype⟩
      rw [headerKey_of_isPlain hplain, headerKey_eq_httpName_iff hf hg, SameVariable,
        or_iff_right fun h ↦ hlength h.2, or_iff_right fun h ↦ htype h.2, and_iff_right hplain]

/-! ## What is found in a variable

The variable of a name is the value of the last header written to it. Under `HTTP_VERSION` the
version of the request is found instead, since it is written afterwards. -/

/-- The headers that are written to the variable of this name. -/
def writtenTo (name : Bytes) (fields : List Field) : List Field :=
  fields.filter fun f ↦ IsPlain f ∧ spelling f.name = spelling name

private theorem lastAssigned_httpName {fields : List Field} (hfields : ∀ f ∈ fields, IsToken f.name)
    (hname : IsToken name) : lastAssigned (headerLines fields) (httpName name)
      = ((writtenTo name fields).map Field.value).getLast? := by
  have hfilter : ((headerLines fields).filter fun p ↦ p.1 = httpName name)
      = (writtenTo name fields).map fun f ↦ (headerKey f, f.value) := by
    rw [headerLines, List.filter_map, writtenTo]
    congr 1
    refine List.filter_congr fun f hf ↦ ?_
    rw [Function.comp_apply, decide_eq_decide]
    exact headerKey_eq_httpName_iff (hfields f hf) hname
  rw [lastAssigned, hfilter, List.getLast?_map, List.getLast?_map, Option.map_map]
  rfl

private theorem httpName_notMem_serverVariables (h : httpName name ≠ ascii "HTTP_VERSION") :
    httpName name ∉ serverVariables := fun hmem ↦ by
  have hall : ∀ k ∈ serverVariables, ascii "HTTP_" <+: k → k = ascii "HTTP_VERSION" := by
    decide
  exact h (hall _ hmem (prefix_httpName name))

/-- **Headers and variables.** In a request whose headers are named by tokens, two headers share a
variable exactly if they are both named `Content-Length`, both named `Content-Type`, or neither of
these and have the same spelling. So what is found under `HTTP_` and a name, except for the version
of the request, is the value of the last header that has the name up to case and the difference
between dashes and underscores. -/
theorem headers_share_variable (parser : Parser) (isSsl : Bool)
    (localEndpoint remoteEndpoint : Endpoint) (now : Option Tm)
    (array : Vector UInt8 txbufSize.val) (sink : ω)
    (htokens : ∀ f ∈ parser.message.fields, IsToken f.name) :
    let env := (new parser isSsl localEndpoint remoteEndpoint now array sink).environment
    (∀ f ∈ parser.message.fields, ∀ g ∈ parser.message.fields,
      headerKey f = headerKey g ↔ SameVariable f g) ∧
    ∀ name, IsToken name → httpName name ≠ ascii "HTTP_VERSION" →
      env.lookup (httpName name)
        = ((writtenTo name parser.message.fields).map Field.value).getLast? := by
  intro env
  refine ⟨fun f hf g hg ↦ headerKey_eq_iff (htokens f hf) (htokens g hg),
    fun name hname hversion ↦ ?_⟩
  have hlookup : env.lookup (httpName name)
      = lastAssigned (headerLines parser.message.fields) (httpName name) :=
    lookup_of_notMem_serverVariables rfl (httpName_notMem_serverVariables hversion)
  rw [hlookup, lastAssigned_httpName htokens hname]

/-- A request with two headers that share a variable. -/
def twoSpellings : Message where
  method := .get
  target := ascii "/"
  version := 11
  fields := [⟨ascii "X-User", ascii "a"⟩, ⟨ascii "X_User", ascii "b"⟩]
  keepAlive := true
  contentLength_ok f hf hname := by
    have hall : ∀ f ∈ [(⟨ascii "X-User", ascii "a"⟩ : Field), ⟨ascii "X_User", ascii "b"⟩],
        f.isNamed (ascii "Content-Length") = false := by decide +kernel
    rw [hall f hf] at hname
    exact absurd hname (by decide)

theorem headers_share_variable_twoSpellings :
    let io := new ⟨twoSpellings, ⟨[], true⟩, []⟩ false ⟨[], 0⟩ ⟨[], 0⟩ none
      (Vector.replicate txbufSize.val 0) ()
    io.environment.lookup (httpName (ascii "x-user")) = some (ascii "b") := by
  intro io
  have htokens : ∀ f ∈ twoSpellings.fields, IsToken f.name := by decide +kernel
  have hruns := headers_share_variable ⟨twoSpellings, ⟨[], true⟩, []⟩ false ⟨[], 0⟩ ⟨[], 0⟩ none
    (Vector.replicate txbufSize.val 0) () htokens
  refine (hruns.2 (ascii "x-user") (by decide +kernel) (by decide +kernel)).trans ?_
  decide +kernel

/-- The names are tokens and differ by more than case, and the handler finds the value of the second
header under the name of the first. -/
theorem spellings_collide :
    let io := new ⟨twoSpellings, ⟨[], true⟩, []⟩ false ⟨[], 0⟩ ⟨[], 0⟩ none
      (Vector.replicate txbufSize.val 0) ()
    ∃ f ∈ twoSpellings.fields, ∃ g ∈ twoSpellings.fields, IsToken f.name ∧ IsToken g.name ∧
      g.isNamed f.name = false ∧ headerKey f = headerKey g ∧
      headerKey f = ascii "HTTP_X_USER" ∧ f.value = ascii "a" ∧
      io.environment.lookup (ascii "HTTP_X_USER") = some (ascii "b") := by
  intro io
  refine ⟨⟨ascii "X-User", ascii "a"⟩, List.mem_cons_self, ⟨ascii "X_User", ascii "b"⟩,
    List.mem_cons_of_mem _ List.mem_cons_self, ?_⟩
  refine ⟨?_, ?_, ?_, ?_, ?_, rfl, ?_⟩ <;> decide +kernel

end ClientIo

end CppRepo
