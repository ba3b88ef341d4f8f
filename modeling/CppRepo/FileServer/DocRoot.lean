import CppRepo.FileServer.FileServer

/-!
# What a client can see of the file system

The path that is opened leads to something in `doc_root`, whatever the target: the target is put
behind `doc_root` with a slash between them, and none of its names is `..`. So what is outside of
`doc_root` has no influence on a session. This is about names: where there are symbolic links, they
decide. With an empty `doc_root` the target itself is opened.

The type of a file depends on its own name only, and not on a dot in the name of a directory.

## Where the path goes

A path is resolved name by name: an empty name or a dot stays, two dots go up, and any other name
goes down. The target has no two dots in a row, so from `doc_root` on it only goes down or stays,
wherever the text is cut off; and cut off it may be, because the path is passed on as a C string and
the target may have a NUL in it.
-/

namespace CppRepo

namespace FileServer

variable {docRoot target path text : Bytes} {cwd : Location} {openFile openFile' : Bytes → Opened}
  {req : Request}

/-! ## The path that is opened

`path_cat` leaves out one slash if `doc_root` ends with one. The path is then `doc_root`, a slash
and the rest of the target, and what is resolved is a location below that of `doc_root`. Two file
systems that agree there open the same files, request by request. -/

/-- The files in which `openFile` and `openFile'` may differ lie outside of `docRoot`. -/
def SameInside (cwd : Location) (docRoot : Bytes) (openFile openFile' : Bytes → Opened) : Prop :=
  ∀ path, resolve cwd docRoot <+: resolve cwd path → openFile path = openFile' path

private theorem exists_pathCat (h : docRoot ≠ []) : ∃ base,
    (∀ text, pathCat docRoot text = base ++ text) ∧
    (docRoot = base ∨ docRoot = base ++ [slash]) := by
  by_cases hlast : docRoot.getLast? = some slash
  · refine ⟨docRoot.dropLast, fun text ↦ ?_, Or.inr ?_⟩
    · rw [pathCat, if_neg h, if_pos hlast]
    · exact (List.dropLast_append_getLast? slash hlast).symm
  · refine ⟨docRoot, fun text ↦ ?_, Or.inl rfl⟩
    rw [pathCat, if_neg h, if_neg hlast]

private theorem resolve_pathCat {base : Bytes} (h : docRoot ≠ [])
    (hbase : docRoot = base ∨ docRoot = base ++ [slash]) (text : Bytes) :
    resolve cwd (base ++ slash :: text) = follow (resolve cwd docRoot) text := by
  have hfollow (dir : Location) : follow dir docRoot = follow dir base := by
    rcases hbase with rfl | rfl
    · rfl
    · exact follow_concat_slash dir base
  have hhead : (base ++ slash :: text).head? = docRoot.head? := by
    cases base with
    | nil =>
      rcases hbase with rfl | rfl
      · exact absurd rfl h
      · rfl
    | cons c cs => rcases hbase with rfl | rfl <;> rfl
  rw [resolve, hhead, follow_append_slash, resolve, hfollow]

private theorem cString_append_of_forall {text rest : Bytes} (h : ∀ c ∈ text, c ≠ 0) :
    cString (text ++ rest) = text ++ cString rest :=
  List.takeWhile_append_of_pos fun c hc ↦ decide_eq_true (h c hc)

private theorem cString_append_of_mem {text : Bytes} (h : 0 ∈ text) (rest : Bytes) :
    cString (text ++ rest) = cString text := by
  induction text with
  | nil => exact absurd h List.not_mem_nil
  | cons c cs ih =>
    by_cases hc : c = 0
    · rw [List.cons_append, cString, List.takeWhile_cons_of_neg (by simpa using hc), cString,
        List.takeWhile_cons_of_neg (by simpa using hc)]
    · have hcs : 0 ∈ cs := (List.mem_cons.mp h).resolve_left (Ne.symm hc)
      have hcons (text : Bytes) : cString (c :: text) = c :: cString text :=
        List.takeWhile_cons_of_pos (by simpa using hc)
      rw [List.cons_append, hcons, hcons, ih hcs]

private theorem not_infix_cString (h : ¬ dotDot <:+: text) : ¬ dotDot <:+: cString text :=
  fun hd ↦ h (hd.trans (List.takeWhile_prefix _).isInfix)

private theorem prefix_follow_file (dir : Location) (hdots : ¬ dotDot <:+: text)
    (hlast : text = [] ∨ text.getLast? = some slash) {file : Bytes} (hfile : ¬ dotDot <:+: file) :
    dir <+: follow dir (cString (text ++ file)) := by
  by_cases hzero : 0 ∈ text
  · rw [cString_append_of_mem hzero]
    exact prefix_follow (not_infix_cString hdots)
  · rw [cString_append_of_forall fun c hc h ↦ hzero (h ▸ hc)]
    rcases hlast with rfl | hlast
    · exact prefix_follow (not_infix_cString hfile)
    · obtain ⟨front, rfl⟩ := List.getLast?_eq_some_iff.mp hlast
      have hfront : ¬ dotDot <:+: front := fun hd ↦ hdots (hd.trans (List.prefix_append ..).isInfix)
      rw [List.append_assoc, List.singleton_append, follow_append_slash]
      exact (prefix_follow hfront).trans (prefix_follow (not_infix_cString hfile))

/-- **The path that is opened leads to something in `doc_root`.** -/
theorem prefix_resolve_requestedPath (cwd : Location) (h : docRoot ≠ []) (hzero : 0 ∉ docRoot)
    (htarget : LegalTarget target) :
    resolve cwd docRoot <+: resolve cwd (cString (requestedPath docRoot target)) := by
  obtain ⟨base, hcat, hbase⟩ := exists_pathCat h
  obtain ⟨hslash, hdots⟩ := htarget
  obtain ⟨rest, rfl⟩ : ∃ rest, target = slash :: rest := List.head?_eq_some_iff.mp hslash
  have hbaseZero : ∀ c ∈ base, c ≠ 0 := by
    rintro c hc rfl
    rcases hbase with rfl | rfl
    · exact hzero hc
    · exact hzero (List.mem_append_left _ hc)
  have hrest : ¬ dotDot <:+: rest := fun hd ↦ hdots (hd.trans (List.suffix_cons ..).isInfix)
  have hpath (file : Bytes) : cString (base ++ slash :: rest ++ file) =
      base ++ slash :: cString (rest ++ file) := by
    rw [List.append_assoc, cString_append_of_forall hbaseZero]
    rfl
  rw [requestedPath, hcat, hpath, resolve_pathCat h hbase]
  split
  case isTrue hlast =>
    refine prefix_follow_file _ hrest ?_ (by decide)
    cases rest with
    | nil => exact Or.inl rfl
    | cons c cs => exact Or.inr ((List.getLast?_cons_cons ..).symm.trans hlast)
  case isFalse =>
    rw [List.append_nil]
    exact prefix_follow (not_infix_cString hrest)

private theorem handleRequest_congr (h : docRoot ≠ []) (hzero : 0 ∉ docRoot)
    (hsame : SameInside cwd docRoot openFile openFile') :
    handleRequest docRoot openFile req = handleRequest docRoot openFile' req := by
  unfold handleRequest
  split
  · rfl
  · split
    · rfl
    · next htarget =>
      have hinside := prefix_resolve_requestedPath cwd h hzero (not_not.mp htarget)
      simp only [hsame _ hinside]

/-- The session meets the same, except for files outside of `doc_root`. -/
def SameTurns (cwd : Location) (docRoot : Bytes) : List Turn → List Turn → Prop :=
  List.Forall₂ fun turn turn' ↦ turn.read = turn'.read ∧ turn.writes = turn'.writes ∧
    SameInside cwd docRoot turn.openFile turn'.openFile

/-- **What is outside of `doc_root` has no influence on a session.** -/
theorem doSession_congr {turns turns' : List Turn} (h : docRoot ≠ []) (hzero : 0 ∉ docRoot)
    (hsame : SameTurns cwd docRoot turns turns') :
    doSession docRoot turns = doSession docRoot turns' := by
  induction hsame with
  | nil => rfl
  | @cons turn turn' turns turns' hturn hturns ih =>
    obtain ⟨hread, hwrites, hfiles⟩ := hturn
    have hres req : handleRequest docRoot turn.openFile req =
        handleRequest docRoot turn'.openFile req := handleRequest_congr h hzero hfiles
    simp only [doSession, hread, hwrites, hres, ih]

/-- A file system with a file outside of `/srv`, with the given content. -/
def oneSecret (secret : Bytes) (path : Bytes) : Opened :=
  if resolve [] path = [ascii "etc", ascii "passwd"] then .file (.whole secret) else .noSuchFile

/-- A request for a file in `/srv`, in such a file system. -/
def askForFile (secret : Bytes) : List Turn :=
  [⟨.request ⟨.get, ascii "/./etc/passwd", 11, true⟩, oneSecret secret, ⟨true, 0⟩⟩]

private theorem sameInside_oneSecret (a b : Bytes) :
    SameInside [] (ascii "/srv") (oneSecret a) (oneSecret b) := by
  intro path hinside
  have hne : resolve [] path ≠ [ascii "etc", ascii "passwd"] := by
    intro heq
    rw [heq] at hinside
    exact absurd hinside (by decide)
  rw [oneSecret, if_neg hne, oneSecret, if_neg hne]

theorem doSession_congr_oneSecret :
    doSession (ascii "/srv") (askForFile (ascii "old")) =
      doSession (ascii "/srv") (askForFile (ascii "new")) :=
  doSession_congr (by decide) (by decide) (.cons ⟨rfl, rfl, sameInside_oneSecret _ _⟩ .nil)

/-! ## The type of a file

The extension begins at the last dot of the whole path. If this dot is in the name of a directory,
the extension has a slash in it and is not known; and if there is no dot, there is no extension. So
only a dot in the last name counts, and the last name is that of the target. -/

private theorem notMem_afterLast (c : UInt8) (text : Bytes) : c ∉ afterLast c text := by
  intro h
  have hne := List.mem_takeWhile_imp (List.mem_reverse.mp h)
  exact of_decide_eq_true hne rfl

private theorem afterLast_of_notMem {c : UInt8} (h : c ∉ text) : afterLast c text = text := by
  have hall : ∀ x ∈ text.reverse, decide (x ≠ c) = true := fun x hx ↦
    decide_eq_true fun heq ↦ h (heq ▸ List.mem_reverse.mp hx)
  rw [afterLast, List.takeWhile_eq_self_iff.mpr hall, List.reverse_reverse]

private theorem afterLast_append_cons (c : UInt8) (front text : Bytes) :
    afterLast c (front ++ c :: text) = afterLast c text := by
  have hstop : (c :: front.reverse).takeWhile (· ≠ c) = [] :=
    List.takeWhile_cons_of_neg (by simp)
  rw [afterLast, List.reverse_append, List.reverse_cons, List.append_assoc, List.singleton_append,
    List.takeWhile_append, hstop, List.append_nil, afterLast]
  split
  case isTrue h => rw [(List.takeWhile_prefix _).eq_of_length h]
  case isFalse => rfl

private theorem exists_eq_append_afterLast {c : UInt8} (h : c ∈ text) :
    ∃ front, text = front ++ c :: afterLast c text := by
  obtain ⟨after, before, htext, hafter⟩ :=
    List.eq_append_cons_of_mem (List.mem_reverse.mpr h)
  have heq : text = before.reverse ++ c :: after.reverse := by
    rw [← List.reverse_reverse text, htext, List.reverse_append, List.reverse_cons,
      List.append_assoc, List.singleton_append]
  refine ⟨before.reverse, ?_⟩
  rw [heq, afterLast_append_cons, afterLast_of_notMem (mt List.mem_reverse.mp hafter)]

/-- The name of a file, without the directories. -/
def fileName (path : Bytes) : Bytes := afterLast slash path

private theorem ext_append (front : Bytes) (h : dot ∈ text) : ext (front ++ text) = ext text := by
  obtain ⟨before, heq⟩ := exists_eq_append_afterLast h
  have hmem : dot ∈ front ++ text := List.mem_append_right front h
  rw [ext, if_pos hmem, ext, if_pos h]
  congr 1
  rw [heq, ← List.append_assoc, afterLast_append_cons, afterLast_append_cons]

private theorem asciiToLower_eq_slash {c : UInt8} (h : asciiToLower c = slash) : c = slash := by
  rw [asciiToLower] at h
  split at h
  case isTrue hc =>
    have hle := UInt8.le_iff_toNat_le.mp hc.1
    have hge := UInt8.le_iff_toNat_le.mp hc.2
    have heq := congrArg UInt8.toNat h
    rw [UInt8.toNat_add] at heq
    simp [slash] at hle hge heq
    omega
  case isFalse => exact h

private theorem slash_mem_of_iequals {a b : Bytes} (h : iequals a b = true) (ha : slash ∈ a) :
    slash ∈ b := by
  have hmap : a.map asciiToLower = b.map asciiToLower := of_decide_eq_true h
  have hmem : slash ∈ b.map asciiToLower := hmap ▸ List.mem_map.mpr ⟨slash, ha, rfl⟩
  obtain ⟨c, hc, heq⟩ := List.mem_map.mp hmem
  exact asciiToLower_eq_slash heq ▸ hc

private theorem mimeType_of_slash_mem (h : slash ∈ ext path) :
    mimeType path = ascii "application/text" := by
  have hslash : ∀ x ∈ mimeTypes, slash ∉ x.1 := by decide +kernel
  have hnone : mimeTypes.find? (fun entry ↦ iequals (ext path) entry.1) = none :=
    List.find?_eq_none.mpr fun x hx heq ↦ hslash x hx (slash_mem_of_iequals heq h)
  rw [mimeType, hnone]

private theorem mimeType_of_nil (h : ext path = []) : mimeType path = ascii "application/text" := by
  rw [mimeType, h]
  decide +kernel

/-- **The type of a file depends on its own name only.** -/
theorem mimeType_fileName (path : Bytes) : mimeType path = mimeType (fileName path) := by
  by_cases hslash : slash ∈ path
  · obtain ⟨dir, hpath⟩ := exists_eq_append_afterLast hslash
    have hpath : path = dir ++ slash :: fileName path := hpath
    by_cases hdot : dot ∈ fileName path
    · have hext : ext path = ext (fileName path) := by
        have happ := ext_append (dir ++ [slash]) hdot
        rwa [List.append_assoc, List.singleton_append, ← hpath] at happ
      rw [mimeType, hext, mimeType]
    · have hnil : ext (fileName path) = [] := if_neg hdot
      rw [mimeType_of_nil hnil]
      by_cases hdir : dot ∈ path
      · -- The last dot is in the name of a directory.
        have hmem : dot ∈ dir := by
          rw [hpath, List.mem_append, List.mem_cons] at hdir
          exact hdir.resolve_right (not_or.mpr ⟨by decide, hdot⟩)
        obtain ⟨front, hfront⟩ := exists_eq_append_afterLast hmem
        have hlast : dot ∉ afterLast dot dir ++ slash :: fileName path := by
          rw [List.mem_append, List.mem_cons]
          exact not_or.mpr ⟨notMem_afterLast dot dir, not_or.mpr ⟨by decide, hdot⟩⟩
        have hsplit : path = front ++ dot :: (afterLast dot dir ++ slash :: fileName path) := by
          rw [← List.cons_append, ← List.append_assoc, ← hfront, ← hpath]
        have hafter : afterLast dot path = afterLast dot dir ++ slash :: fileName path :=
          calc afterLast dot path
              = afterLast dot (front ++ dot :: (afterLast dot dir ++ slash :: fileName path)) :=
                congrArg (afterLast dot) hsplit
            _ = afterLast dot (afterLast dot dir ++ slash :: fileName path) :=
                afterLast_append_cons ..
            _ = afterLast dot dir ++ slash :: fileName path := afterLast_of_notMem hlast
        refine mimeType_of_slash_mem ?_
        rw [ext, if_pos hdir, hafter]
        exact List.mem_cons_of_mem dot (List.mem_append_right _ List.mem_cons_self)
      · exact mimeType_of_nil (if_neg hdir)
  · rw [fileName, afterLast_of_notMem hslash]

private theorem fileName_requestedPath (docRoot : Bytes) (htarget : target.head? = some slash) :
    fileName (requestedPath docRoot target) =
      if target.getLast? = some slash then ascii "index.html" else fileName target := by
  have hbase : ∃ base, pathCat docRoot target = base ++ target := by
    by_cases h : docRoot = []
    · exact ⟨[], if_pos h⟩
    · obtain ⟨base, hcat, -⟩ := exists_pathCat h
      exact ⟨base, hcat target⟩
  obtain ⟨base, hcat⟩ := hbase
  rw [requestedPath, hcat]
  split
  case isTrue hlast =>
    obtain ⟨front, rfl⟩ := List.getLast?_eq_some_iff.mp hlast
    rw [fileName, ← List.append_assoc, List.append_assoc, List.singleton_append,
      afterLast_append_cons, afterLast_of_notMem (by decide)]
  case isFalse =>
    obtain ⟨rest, rfl⟩ := List.head?_eq_some_iff.mp htarget
    have hfront : fileName (slash :: rest) = afterLast slash rest :=
      afterLast_append_cons slash [] rest
    rw [hfront, fileName, List.append_nil, afterLast_append_cons]

/-- **The type of a file that is sent is decided by the target alone.** -/
theorem contentType_eq (h : (handleRequest docRoot openFile req).head.status = 200) :
    (handleRequest docRoot openFile req).head.contentType =
      if req.target.getLast? = some slash then ascii "text/html"
      else mimeType (fileName req.target) := by
  rcases handleRequest_cases docRoot openFile req with ⟨status, body, hne, -, heq⟩ | hfile
  · rw [heq] at h
    exact absurd h hne
  · obtain ⟨f, htarget, -, heq⟩ := hfile
    have hname := fileName_requestedPath docRoot htarget.1
    have htype : (handleRequest docRoot openFile req).head.contentType =
        mimeType (requestedPath docRoot req.target) := by rw [heq, fileResponse]
    rw [htype, mimeType_fileName, hname]
    split
    · decide +kernel
    · rfl

theorem contentType_eq_dotInDirectory :
    (handleRequest (ascii "www.css") (fun _ ↦ .file (.whole []))
      ⟨.get, ascii "/v1.html/readme", 11, true⟩).head.contentType = ascii "application/text" := by
  rw [contentType_eq (by decide +kernel)]
  decide +kernel

end FileServer

end CppRepo
