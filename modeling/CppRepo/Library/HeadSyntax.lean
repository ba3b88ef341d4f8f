import CppRepo.Library.Separator
import CppRepo.Library.Text

/-!
# The head of an HTTP/1.1 message

A head is a first line, lines of the form `name: value`, and an empty line. `renderHead` writes one
and `parseHead` reads one from the front of a text, as far as the first empty line.

Reading gives back what was written if no part has the separator that ends it, and only then
(`parseHead_renderHead_iff`): a line end in a part ends its line early, and a colon with a blank in
a name ends the name.
-/

namespace CppRepo

variable {line body : Bytes} {fields : List (Bytes × Bytes)} {f : Bytes × Bytes}

/-- What stands between the name and the value of a field. -/
def headerSep : Bytes := ascii ": "

/-! ## Writing and reading -/

/-- The line of a field. -/
def renderField (f : Bytes × Bytes) : Bytes := f.1 ++ headerSep ++ f.2 ++ crlf

/-- The head with this first line and these fields. -/
def renderHead (line : Bytes) (fields : List (Bytes × Bytes)) : Bytes :=
  line ++ crlf ++ fields.flatMap renderField ++ crlf

theorem length_lt_of_cut {text front rest : Bytes} (h : cut crlf text = some (front, rest)) :
    rest.length < text.length := by
  obtain ⟨rfl, _⟩ := (cut_eq_some_iff (by decide)).mp h
  simp only [List.length_append, List.length_cons]
  omega

/-- The fields up to the first empty line, and what follows it. -/
def parseFields (text : Bytes) : Option (List (Bytes × Bytes) × Bytes) :=
  match _ : cut crlf text with
  | none => none
  | some (line, rest) =>
    if line = [] then some ([], rest)
    else (cut headerSep line).bind fun f ↦ (parseFields rest).map fun p ↦ (f :: p.1, p.2)
termination_by text.length
decreasing_by exact length_lt_of_cut (by assumption)

/-- The first line, the fields, and what follows the head. -/
def parseHead (text : Bytes) : Option (Bytes × List (Bytes × Bytes) × Bytes) :=
  (cut crlf text).bind fun p ↦ (parseFields p.2).map fun q ↦ (p.1, q)

/-- No part of the field has the separator that ends it. -/
def IsCleanField (f : Bytes × Bytes) : Prop :=
  ¬crlf <:+: f.1 ∧ ¬headerSep <:+: f.1 ∧ ¬crlf <:+: f.2

instance : DecidablePred IsCleanField := fun _ ↦ inferInstanceAs (Decidable (_ ∧ _))

/-! ## Lines

Where a line, or a name, ends is a matter of its text alone: the two characters of the separator are
different. -/

theorem cut_crlf_iff {text front rest : Bytes} :
    cut crlf text = some (front, rest) ↔ text = front ++ crlf ++ rest ∧ ¬crlf <:+: front := by
  rw [List.append_assoc]
  exact cut_eq_some_iff (by decide)

theorem cut_headerSep_iff {line name value : Bytes} : cut headerSep line = some (name, value) ↔
    line = name ++ headerSep ++ value ∧ ¬headerSep <:+: name := by
  rw [List.append_assoc]
  exact cut_eq_some_iff (by decide)

theorem crlf_infix_field_iff {name value : Bytes} :
    crlf <:+: name ++ headerSep ++ value ↔ crlf <:+: name ∨ crlf <:+: value := by
  have hsep : name ++ headerSep ++ value = name ++ 58 :: 32 :: value := List.append_assoc ..
  have hcolon : (58 : UInt8) ≠ 10 ∧ (58 : UInt8) ≠ 13 := by decide
  rw [hsep, show crlf = [13, 10] from rfl, pair_infix_append_cons hcolon.1,
    pair_infix_cons hcolon.2, pair_infix_cons (by decide)]

/-! ## Fields

The fields are read one after the other, up to a line without text. The induction is on the list of
fields, and each field takes its line off the front. -/

theorem parseFields_eq (text : Bytes) : parseFields text = (cut crlf text).bind fun p ↦
    if p.1 = [] then some ([], p.2)
    else (cut headerSep p.1).bind fun f ↦ (parseFields p.2).map fun q ↦ (f :: q.1, q.2) := by
  rw [parseFields]
  split
  · rename_i hnone
    rw [hnone, Option.bind_none]
  · rename_i line rest hsome
    rw [hsome, Option.bind_some]

theorem parseFields_crlf (body : Bytes) : parseFields (crlf ++ body) = some ([], body) := by
  have hcut : cut crlf (crlf ++ body) = some ([], body) := cut_crlf_iff.mpr ⟨rfl, by decide⟩
  rw [parseFields_eq, hcut, Option.bind_some, if_pos rfl]

theorem field_ne_nil : f.1 ++ headerSep ++ f.2 ≠ [] := by simp [headerSep, ascii]

/-- **One field** is read back if and only if it is clean. -/
theorem parseFields_field_iff {rest : Bytes} :
    parseFields (renderField f ++ rest) = some (f :: fields, body) ↔
      IsCleanField f ∧ parseFields rest = some (fields, body) := by
  rw [parseFields_eq, renderField]
  constructor
  · intro h
    obtain ⟨⟨line, rest'⟩, hline, h⟩ := Option.bind_eq_some_iff.mp h
    by_cases hempty : line = []
    · rw [if_pos hempty] at h
      exact absurd h (by simp)
    · rw [if_neg hempty] at h
      obtain ⟨⟨name, value⟩, hname, h⟩ := Option.bind_eq_some_iff.mp h
      obtain ⟨⟨fields', body'⟩, hrest, h⟩ := Option.map_eq_some_iff.mp h
      obtain ⟨hfields, rfl⟩ := Prod.mk.inj h
      obtain ⟨rfl, rfl⟩ := List.cons.inj hfields
      obtain ⟨htext, hend⟩ := cut_crlf_iff.mp hline
      obtain ⟨rfl, hsep⟩ := cut_headerSep_iff.mp hname
      rw [crlf_infix_field_iff, not_or] at hend
      rw [List.append_cancel_left htext]
      exact ⟨⟨hend.1, hsep, hend.2⟩, hrest⟩
  · rintro ⟨⟨hname, hsep, hvalue⟩, hrest⟩
    have hend : ¬crlf <:+: f.1 ++ headerSep ++ f.2 := by
      rw [crlf_infix_field_iff, not_or]
      exact ⟨hname, hvalue⟩
    rw [cut_crlf_iff.mpr ⟨rfl, hend⟩, Option.bind_some, if_neg field_ne_nil,
      cut_headerSep_iff.mpr ⟨rfl, hsep⟩, Option.bind_some, hrest, Option.map_some]

/-- **The fields** are read back if and only if all of them are clean. -/
theorem parseFields_flatMap_iff :
    parseFields (fields.flatMap renderField ++ (crlf ++ body)) = some (fields, body) ↔
      ∀ f ∈ fields, IsCleanField f := by
  induction fields with
  | nil => simp [parseFields_crlf]
  | cons f fields ih =>
    rw [List.flatMap_cons, List.append_assoc, parseFields_field_iff, ih, List.forall_mem_cons]

/-- **The round trip of a head.** -/
theorem parseHead_renderHead_iff : parseHead (renderHead line fields ++ body)
    = some (line, fields, body) ↔ ¬crlf <:+: line ∧ ∀ f ∈ fields, IsCleanField f := by
  have htext : renderHead line fields ++ body
      = line ++ crlf ++ (fields.flatMap renderField ++ (crlf ++ body)) := by
    simp only [renderHead, List.append_assoc]
  rw [parseHead, htext]
  constructor
  · intro h
    obtain ⟨⟨line', rest⟩, hline, h⟩ := Option.bind_eq_some_iff.mp h
    obtain ⟨q, hrest, h⟩ := Option.map_eq_some_iff.mp h
    obtain ⟨rfl, rfl⟩ := Prod.mk.inj h
    obtain ⟨hsame, hend⟩ := cut_crlf_iff.mp hline
    rw [← List.append_cancel_left hsame] at hrest
    exact ⟨hend, parseFields_flatMap_iff.mp hrest⟩
  · rintro ⟨hline, hfields⟩
    rw [cut_crlf_iff.mpr ⟨rfl, hline⟩, Option.bind_some, parseFields_flatMap_iff.mpr hfields,
      Option.map_some]

end CppRepo
