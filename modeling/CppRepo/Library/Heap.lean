import CppRepo.Library.CLibrary

/-!
# A heap of linked cells

A cell has two link fields and a content. A heap gives the live cells by address. Reading, writing
or releasing a cell that is not live is undefined behaviour, and so is a fresh cell at a live
address, which no allocator hands out.

A loop is given the number of rounds it may make; one that is not over by then is cut off. That a
loop ends is the statement that some number of rounds is enough.

Each write has a pure counterpart on heaps, and a program is reasoned about in two steps: its
postcondition is rewritten to one about the written heap, and that heap's links are computed by the
`next_` and `prev_` equations.
-/

namespace CppRepo

/-- An address. -/
abbrev Address := ℕ

/-- A cell with links to two others. -/
structure Cell (P : Type) where
  next : Address
  prev : Address
  content : P
  deriving DecidableEq

/-- The live cells. -/
abbrev Heap (P : Type) := Address → Option (Cell P)

/-- What ends a loop that is given too few rounds. -/
inductive CutOff where
  | cutOff
  deriving DecidableEq, Repr

/-- A program on the heap. -/
abbrev HeapM (P α : Type) := EStateM (Fault CutOff) (Heap P) α

namespace Heap

variable {P : Type} {h : Heap P} {a b x : Address} {c : Cell P}

/-! ## Fields

Each field is read as an option, which is empty where no cell is live. -/

/-- The `next` of a live cell. -/
def next (h : Heap P) (a : Address) : Option Address := (h a).map Cell.next

/-- The `prev` of a live cell. -/
def prev (h : Heap P) (a : Address) : Option Address := (h a).map Cell.prev

/-- The content of a live cell. -/
def content (h : Heap P) (a : Address) : Option P := (h a).map Cell.content

/-- There is a cell at `a`. -/
def Live (h : Heap P) (a : Address) : Prop := (h a).isSome

instance : Decidable (h.Live a) := inferInstanceAs (Decidable ((h a).isSome = true))

theorem live_iff : h.Live a ↔ ∃ c, h a = some c := Option.isSome_iff_exists

theorem live_of_next (ha : h.next a = some b) : h.Live a := by
  obtain ⟨c, hc, -⟩ := Option.map_eq_some_iff.mp ha
  exact live_iff.mpr ⟨c, hc⟩

theorem live_of_prev (ha : h.prev a = some b) : h.Live a := by
  obtain ⟨c, hc, -⟩ := Option.map_eq_some_iff.mp ha
  exact live_iff.mpr ⟨c, hc⟩

theorem live_of_content {p : P} (ha : h.content a = some p) : h.Live a := by
  obtain ⟨c, hc, -⟩ := Option.map_eq_some_iff.mp ha
  exact live_iff.mpr ⟨c, hc⟩

/-! ## Updates

A write is an update at one address. The equations say what the fields are after it, at this address
and at the others. -/

/-- The heap after a write to the `next` of a cell. -/
def setNext (h : Heap P) (a b : Address) : Heap P :=
  Function.update h a ((h a).map fun c ↦ { c with next := b })

/-- The heap after a write to the `prev` of a cell. -/
def setPrev (h : Heap P) (a b : Address) : Heap P :=
  Function.update h a ((h a).map fun c ↦ { c with prev := b })

theorem setNext_of_ne (hx : x ≠ a) : h.setNext a b x = h x := Function.update_of_ne hx _ _

theorem setPrev_of_ne (hx : x ≠ a) : h.setPrev a b x = h x := Function.update_of_ne hx _ _

@[simp] theorem prev_setNext : (h.setNext a b).prev x = h.prev x := by
  rw [prev, prev, setNext]
  rcases eq_or_ne x a with rfl | hx
  · rw [Function.update_self, Option.map_map]
    rfl
  · rw [Function.update_of_ne hx]

@[simp] theorem next_setPrev : (h.setPrev a b).next x = h.next x := by
  rw [next, next, setPrev]
  rcases eq_or_ne x a with rfl | hx
  · rw [Function.update_self, Option.map_map]
    rfl
  · rw [Function.update_of_ne hx]

@[simp] theorem content_setNext : (h.setNext a b).content x = h.content x := by
  rw [content, content, setNext]
  rcases eq_or_ne x a with rfl | hx
  · rw [Function.update_self, Option.map_map]
    rfl
  · rw [Function.update_of_ne hx]

@[simp] theorem content_setPrev : (h.setPrev a b).content x = h.content x := by
  rw [content, content, setPrev]
  rcases eq_or_ne x a with rfl | hx
  · rw [Function.update_self, Option.map_map]
    rfl
  · rw [Function.update_of_ne hx]

@[simp] theorem live_setNext : (h.setNext a b).Live x ↔ h.Live x := by
  rw [Live, Live, setNext]
  rcases eq_or_ne x a with rfl | hx
  · rw [Function.update_self, Option.isSome_map]
  · rw [Function.update_of_ne hx]

@[simp] theorem live_setPrev : (h.setPrev a b).Live x ↔ h.Live x := by
  rw [Live, Live, setPrev]
  rcases eq_or_ne x a with rfl | hx
  · rw [Function.update_self, Option.isSome_map]
  · rw [Function.update_of_ne hx]

theorem next_setNext_self (ha : h.Live a) : (h.setNext a b).next a = some b := by
  obtain ⟨c, hc⟩ := live_iff.mp ha
  rw [next, setNext, Function.update_self, hc]
  rfl

theorem prev_setPrev_self (ha : h.Live a) : (h.setPrev a b).prev a = some b := by
  obtain ⟨c, hc⟩ := live_iff.mp ha
  rw [prev, setPrev, Function.update_self, hc]
  rfl

theorem next_setNext_of_ne (hx : x ≠ a) : (h.setNext a b).next x = h.next x := by
  rw [next, next, setNext_of_ne hx]

theorem prev_setPrev_of_ne (hx : x ≠ a) : (h.setPrev a b).prev x = h.prev x := by
  rw [prev, prev, setPrev_of_ne hx]

/-! ## Frames

`SameOutside` says that a program has touched no other cells than its own. `Replaced` says this of a
program that releases and allocates cells, too: those it has afterwards were its own, or free. -/

section Frames

variable {h' h'' : Heap P} {own own' : List Address}

/-- The two heaps agree on all cells that are not in `own`. -/
def SameOutside (own : List Address) (h h' : Heap P) : Prop := ∀ a ∉ own, h' a = h a

theorem SameOutside.trans (h₁ : SameOutside own h h') (h₂ : SameOutside own h' h'') :
    SameOutside own h h'' := fun a ha ↦ (h₂ a ha).trans (h₁ a ha)

theorem SameOutside.mono (h₁ : SameOutside own h h') (hsub : own ⊆ own') :
    SameOutside own' h h' := fun a ha ↦ h₁ a fun hmem ↦ ha (hsub hmem)

/-- What owned the cells `own` owns the cells `own'`: nothing else is touched, the cells it no
longer has are gone, and those it did not have before were free. -/
structure Replaced (own own' : List Address) (h h' : Heap P) : Prop where
  same : ∀ a, a ∉ own → a ∉ own' → h' a = h a
  released : ∀ a ∈ own, a ∉ own' → ¬ h'.Live a
  fresh : ∀ a ∈ own', a ∉ own → ¬ h.Live a

theorem Replaced.refl (own : List Address) (h : Heap P) : Replaced own own h h :=
  ⟨fun _ _ _ ↦ rfl, fun _ ha hna ↦ absurd ha hna, fun _ ha hna ↦ absurd ha hna⟩

theorem Replaced.eq_of_live (hrep : Replaced own own' h h') (hlive : h.Live a) (ha : a ∉ own) :
    h' a = h a := by
  by_cases ha' : a ∈ own'
  · exact absurd hlive (hrep.fresh a ha' ha)
  · exact hrep.same a ha ha'

end Frames

end Heap

/-! ## Programs

One rule for each access, where the cell is live. -/

section Programs

variable {P : Type} {h : Heap P} {a b : Address} {c : Cell P} {f : Cell P → Cell P}

/-- Reads a cell. -/
def read (a : Address) : HeapM P (Cell P) := do
  match (← get) a with
  | some c => return c
  | none => throw .undefinedBehaviour

/-- Reads the `next` of a cell. -/
def readNext (a : Address) : HeapM P Address := Cell.next <$> read a

/-- Reads the `prev` of a cell. -/
def readPrev (a : Address) : HeapM P Address := Cell.prev <$> read a

/-- Writes the `next` of a cell. -/
def writeNext (a b : Address) : HeapM P Unit := do
  if (← get).Live a then modify fun h ↦ h.setNext a b else throw .undefinedBehaviour

/-- Writes the `prev` of a cell. -/
def writePrev (a b : Address) : HeapM P Unit := do
  if (← get).Live a then modify fun h ↦ h.setPrev a b else throw .undefinedBehaviour

/-- Makes a new cell, at the address the allocator gives. -/
def allocate (a : Address) (c : Cell P) : HeapM P Unit := do
  if (← get).Live a then throw .undefinedBehaviour else modify fun h ↦ Function.update h a (some c)

/-- Ends the life of a cell. -/
def release (a : Address) : HeapM P Unit := do
  if (← get).Live a then modify fun h ↦ Function.update h a none else throw .undefinedBehaviour

section Rules

variable {Q : Unit → Heap P → Prop} {E : Fault CutOff → Heap P → Prop}

theorem ensures_read {Q : Cell P → Heap P → Prop} (ha : h a = some c) :
    Ensures (read a) h Q E ↔ Q c h := by
  simp only [read, ensures_bind, ensures_get, ha, ensures_pure]

theorem ensures_readNext {Q : Address → Heap P → Prop} (ha : h.next a = some b) :
    Ensures (readNext a) h Q E ↔ Q b h := by
  obtain ⟨c, hc, rfl⟩ := Option.map_eq_some_iff.mp ha
  rw [readNext, ensures_map, ensures_read hc]

theorem ensures_readPrev {Q : Address → Heap P → Prop} (ha : h.prev a = some b) :
    Ensures (readPrev a) h Q E ↔ Q b h := by
  obtain ⟨c, hc, rfl⟩ := Option.map_eq_some_iff.mp ha
  rw [readPrev, ensures_map, ensures_read hc]

theorem ensures_writeNext (ha : h.Live a) :
    Ensures (writeNext a b) h Q E ↔ Q ⟨⟩ (h.setNext a b) := by
  simp only [writeNext, ensures_bind, ensures_get, ha, if_true, ensures_modify]

theorem ensures_writePrev (ha : h.Live a) :
    Ensures (writePrev a b) h Q E ↔ Q ⟨⟩ (h.setPrev a b) := by
  simp only [writePrev, ensures_bind, ensures_get, ha, if_true, ensures_modify]

theorem ensures_allocate (ha : ¬ h.Live a) :
    Ensures (allocate a c) h Q E ↔ Q ⟨⟩ (Function.update h a (some c)) := by
  simp only [allocate, ensures_bind, ensures_get, ha, if_false, ensures_modify]

theorem ensures_release (ha : h.Live a) :
    Ensures (release a) h Q E ↔ Q ⟨⟩ (Function.update h a none) := by
  simp only [release, ensures_bind, ensures_get, ha, if_true, ensures_modify]

end Rules

end Programs

end CppRepo
