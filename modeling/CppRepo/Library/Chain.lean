import CppRepo.Library.Heap

/-!
# Chains of singly linked cells

A cell has a content and a pointer to the next cell, which may be null. A chain is followed from a
pointer along `next` until the pointer is null; since `next` is a function, the cells of a chain are
all different and the pointer determines them.

To read or to write through a null pointer, or through one to no live cell, is undefined behaviour.
-/

namespace CppRepo

/-- A pointer, which may be null. -/
abbrev Pointer := Option Address

/-- A cell with a pointer to the next. -/
structure Link (P : Type) where
  content : P
  next : Pointer
  deriving DecidableEq

/-- The live cells. -/
abbrev Links (P : Type) := Address → Option (Link P)

namespace Links

variable {P : Type} {h : Links P} {a b : Address} {p q : Pointer} {as bs : List Address}

/-- The `next` of a live cell. -/
def next (h : Links P) (a : Address) : Option Pointer := (h a).map Link.next

/-- The content of a live cell. -/
def content (h : Links P) (a : Address) : Option P := (h a).map Link.content

/-- The cells after a write to the `next` of one of them. -/
def setNext (h : Links P) (a : Address) (p : Pointer) : Links P :=
  Function.update h a ((h a).map fun c ↦ { c with next := p })

@[simp] theorem content_setNext : (h.setNext a p).content = h.content := by
  funext x
  rw [content, content, setNext]
  rcases eq_or_ne x a with rfl | hx
  · rw [Function.update_self, Option.map_map]
    rfl
  · rw [Function.update_of_ne hx]

theorem next_setNext_self (ha : h.next a = some q) : (h.setNext a p).next a = some p := by
  obtain ⟨c, hc, -⟩ := Option.map_eq_some_iff.mp ha
  rw [next, setNext, Function.update_self, hc]
  rfl

theorem next_setNext_of_ne (hb : b ≠ a) : (h.setNext a p).next b = h.next b := by
  rw [next, next, setNext, Function.update_of_ne hb]

/-! ## Chains

A chain is given by the pointer it begins with. If a cell were on it twice, the chain from there
would be one of its own parts. -/

/-- From the pointer the cells are followed to a null pointer. -/
def Chain (h : Links P) : Pointer → List Address → Prop
  | p, [] => p = none
  | p, a :: as => p = some a ∧ ∃ q, h.next a = some q ∧ h.Chain q as

theorem chain_nil : h.Chain none [] := rfl

theorem chain_cons (ha : h.next a = some q) (has : h.Chain q as) : h.Chain (some a) (a :: as) :=
  ⟨rfl, q, ha, has⟩

theorem Chain.eq_head? (hp : h.Chain p as) : p = as.head? := by
  rcases as with - | ⟨a, as⟩
  · exact hp
  · exact hp.1

theorem Chain.unique (has : h.Chain p as) (hbs : h.Chain p bs) : as = bs := by
  induction as generalizing p bs with
  | nil =>
    obtain rfl : p = none := has
    rcases bs with - | ⟨b, bs⟩
    · rfl
    · exact absurd hbs.1 (Option.some_ne_none b).symm
  | cons a as ih =>
    obtain ⟨rfl, q, hq, has⟩ := has
    rcases bs with - | ⟨b, bs⟩
    · exact absurd hbs (Option.some_ne_none a)
    · obtain ⟨heq, q', hq', hbs⟩ := hbs
      obtain rfl := Option.some_inj.mp heq
      obtain rfl := Option.some_inj.mp (hq.symm.trans hq')
      rw [ih has hbs]

theorem Chain.suffix (h' : h.Chain p (as ++ b :: bs)) : h.Chain (some b) (b :: bs) := by
  induction as generalizing p with
  | nil =>
    obtain ⟨rfl, hb⟩ := h'
    exact ⟨rfl, hb⟩
  | cons a as ih =>
    obtain ⟨-, q, -, hq⟩ := h'
    exact ih hq

theorem Chain.nodup (has : h.Chain p as) : as.Nodup := by
  induction as generalizing p with
  | nil => exact List.nodup_nil
  | cons a as ih =>
    obtain ⟨rfl, q, hq, htail⟩ := has
    refine List.nodup_cons.mpr ⟨fun hmem ↦ ?_, ih htail⟩
    obtain ⟨l, r, rfl⟩ := List.append_of_mem hmem
    -- The chain from `a` would be a proper part of itself.
    have heq := (chain_cons hq htail).unique htail.suffix
    have hlength := congrArg List.length heq
    simp only [List.length_cons, List.length_append] at hlength
    omega

/-- A write to a cell that is not on it leaves a chain. -/
theorem Chain.setNext (has : h.Chain p as) (hb : b ∉ as) : (h.setNext b q).Chain p as := by
  induction as generalizing p with
  | nil => exact has
  | cons a as ih =>
    obtain ⟨rfl, q', hq', has⟩ := has
    have hne : a ≠ b := fun heq ↦ hb (heq ▸ List.mem_cons_self)
    refine chain_cons ?_ (ih has fun hmem ↦ hb (List.mem_cons_of_mem a hmem))
    rwa [next_setNext_of_ne hne]

theorem Chain.push (has : h.Chain p as) (hb : b ∉ as) (hq : h.next b = some q) :
    (h.setNext b p).Chain (some b) (b :: as) :=
  chain_cons (next_setNext_self hq) (has.setNext hb)

end Links

/-! ## Programs

One rule for each access, where the cell is there. -/

section Programs

variable {ε P : Type} {h : Links P} {a : Address} {p q : Pointer}

/-- Reads the `next` behind a pointer. -/
def readLink (p : Pointer) : EStateM (Fault ε) (Links P) Pointer := do
  match p.bind (← get).next with
  | some q => return q
  | none => throw .undefinedBehaviour

/-- Writes the `next` behind a pointer. -/
def writeLink (p q : Pointer) : EStateM (Fault ε) (Links P) Unit := do
  match p with
  | some a =>
    if ((← get) a).isSome then modify fun h ↦ h.setNext a q else throw .undefinedBehaviour
  | none => throw .undefinedBehaviour

theorem ensures_readLink {Q : Pointer → Links P → Prop} {E : Fault ε → Links P → Prop}
    (ha : h.next a = some q) : Ensures (readLink (some a)) h Q E ↔ Q q h := by
  simp only [readLink, ensures_bind, ensures_get, Option.bind_some, ha, ensures_pure]

theorem ensures_writeLink {Q : Unit → Links P → Prop} {E : Fault ε → Links P → Prop}
    (ha : h.next a = some q) :
    Ensures (writeLink (some a) p) h Q E ↔ Q ⟨⟩ (h.setNext a p) := by
  obtain ⟨c, hc, -⟩ := Option.map_eq_some_iff.mp ha
  simp only [writeLink, ensures_bind, ensures_get, hc, Option.isSome_some, if_true, ensures_modify]

end Programs

end CppRepo
