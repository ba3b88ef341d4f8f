import Mathlib

/-!
# Programs with state and exceptions

A method call either returns a value or throws, and in both cases leaves a state behind; that is
`EStateM ε σ α`. This file has what the developments below need of it: the postcondition of a
program at a state, with one equation for each way to build a program, the lifting of a program to a
larger state, and runs of many calls in which a call that throws does not undo what it did.

## Why runs continue after an exception

A caller may catch an exception and make the next call on the same object. `runAll` therefore keeps
the state a throwing call left and goes on; a statement about the calls of one caller that gives up
at the first exception is the special case in which every result is a return.
-/

namespace CppRepo

variable {ε σ τ α β ι : Type}

/-! ## Postconditions

`Ensures` is the weakest precondition at a state, for a postcondition and one for exceptions. There
is one equation for each way to build a program, so a proof follows the program by rewriting. -/

/-- Started in `s`, the program `x` returns a value and a state satisfying `Q`, or throws an
exception and leaves a state satisfying `E`. -/
def Ensures (x : EStateM ε σ α) (s : σ) (Q : α → σ → Prop) (E : ε → σ → Prop) : Prop :=
  match x s with
  | .ok a t => Q a t
  | .error e t => E e t

section Rules

variable {x : EStateM ε σ α} {s : σ} {Q : α → σ → Prop} {E : ε → σ → Prop}

theorem Ensures.mono {Q' : α → σ → Prop} {E' : ε → σ → Prop} (h : Ensures x s Q E)
    (hQ : ∀ a t, Q a t → Q' a t) (hE : ∀ e t, E e t → E' e t) : Ensures x s Q' E' := by
  rw [Ensures] at h ⊢
  cases hx : x s with
  | ok a t => rw [hx] at h; exact hQ a t h
  | error e t => rw [hx] at h; exact hE e t h

theorem Ensures.of_forall (hQ : ∀ a t, Q a t) (hE : ∀ e t, E e t) : Ensures x s Q E := by
  rw [Ensures]
  cases x s with
  | ok a t => exact hQ a t
  | error e t => exact hE e t

theorem Ensures.of_ok {a : α} {t : σ} (h : Ensures x s Q E) (hx : x s = .ok a t) : Q a t := by
  rwa [Ensures, hx] at h

theorem Ensures.of_error {e : ε} {t : σ} (h : Ensures x s Q E) (hx : x s = .error e t) :
    E e t := by
  rwa [Ensures, hx] at h

theorem Ensures.exists_ok (h : Ensures x s Q fun _ _ ↦ False) :
    ∃ a t, x s = .ok a t ∧ Q a t := by
  rw [Ensures] at h
  cases hx : x s with
  | ok a t => rw [hx] at h; exact ⟨a, t, rfl, h⟩
  | error e t => rw [hx] at h; exact h.elim

@[simp] theorem ensures_pure {a : α} : Ensures (pure a : EStateM ε σ α) s Q E ↔ Q a s := Iff.rfl

@[simp] theorem ensures_throw {e : ε} :
    Ensures (throw e : EStateM ε σ α) s Q E ↔ E e s := Iff.rfl

@[simp] theorem ensures_bind {f : α → EStateM ε σ β} {Q : β → σ → Prop} :
    Ensures (x >>= f) s Q E ↔ Ensures x s (fun a t ↦ Ensures (f a) t Q E) E := by
  have hbind : (x >>= f) s = match x s with
      | .ok a t => f a t
      | .error e t => .error e t := rfl
  rw [Ensures, Ensures, hbind]
  cases x s <;> rfl

@[simp] theorem ensures_map {f : α → β} {Q : β → σ → Prop} :
    Ensures (f <$> x) s Q E ↔ Ensures x s (fun a t ↦ Q (f a) t) E := by
  have hmap : (f <$> x) s = match x s with
      | .ok a t => .ok (f a) t
      | .error e t => .error e t := rfl
  rw [Ensures, Ensures, hmap]
  cases x s <;> rfl

@[simp] theorem ensures_get {Q : σ → σ → Prop} :
    Ensures (get : EStateM ε σ σ) s Q E ↔ Q s s := Iff.rfl

@[simp] theorem ensures_set {t : σ} {Q : PUnit → σ → Prop} :
    Ensures (set t : EStateM ε σ PUnit) s Q E ↔ Q ⟨⟩ t := Iff.rfl

@[simp] theorem ensures_modify {f : σ → σ} {Q : PUnit → σ → Prop} :
    Ensures (modify f : EStateM ε σ PUnit) s Q E ↔ Q ⟨⟩ (f s) := Iff.rfl

end Rules

theorem bind_of_ok {x : EStateM ε σ α} {f : α → EStateM ε σ β} {s t : σ} {a : α}
    (h : x s = .ok a t) : (x >>= f) s = f a t := by
  have hbind : (x >>= f) s = match x s with
      | .ok a t => f a t
      | .error e t => .error e t := rfl
  rw [hbind, h]

theorem bind_of_error {x : EStateM ε σ α} {f : α → EStateM ε σ β} {s t : σ} {e : ε}
    (h : x s = .error e t) : (x >>= f) s = .error e t := by
  have hbind : (x >>= f) s = match x s with
      | .ok a t => f a t
      | .error e t => .error e t := rfl
  rw [hbind, h]

theorem get_bind {f : σ → EStateM ε σ β} {s : σ} : (get >>= f) s = f s s := rfl

/-- The state a program leaves, however it ends. -/
def after (x : EStateM ε σ α) (s : σ) : σ :=
  match x s with
  | .ok _ t => t
  | .error _ t => t

theorem after_of_ok {x : EStateM ε σ α} {s t : σ} {a : α} (h : x s = .ok a t) : after x s = t := by
  rw [after, h]

theorem after_of_error {x : EStateM ε σ α} {s t : σ} {e : ε} (h : x s = .error e t) :
    after x s = t := by
  rw [after, h]

/-! ## Programs on a component of the state

A program on a part of the state is run on the whole by a view of the part and a way to put it
back. -/

/-- A program on a component of the state, as a program on the whole. -/
def zoom (view : σ → τ) (put : τ → σ → σ) (x : EStateM ε τ α) : EStateM ε σ α := fun s ↦
  match x (view s) with
  | .ok a t => .ok a (put t s)
  | .error e t => .error e (put t s)

@[simp] theorem ensures_zoom {view : σ → τ} {put : τ → σ → σ} {x : EStateM ε τ α} {s : σ}
    {Q : α → σ → Prop} {E : ε → σ → Prop} :
    Ensures (zoom view put x) s Q E
      ↔ Ensures x (view s) (fun a t ↦ Q a (put t s)) (fun e t ↦ E e (put t s)) := by
  rw [Ensures, Ensures, zoom]
  cases x (view s) <;> rfl

/-- A program whose exceptions are read as those of a larger type. -/
def mapError {ε' : Type} (f : ε → ε') (x : EStateM ε σ α) : EStateM ε' σ α := fun s ↦
  match x s with
  | .ok a t => .ok a t
  | .error e t => .error (f e) t

@[simp] theorem ensures_mapError {ε' : Type} {f : ε → ε'} {x : EStateM ε σ α} {s : σ}
    {Q : α → σ → Prop} {E : ε' → σ → Prop} :
    Ensures (mapError f x) s Q E ↔ Ensures x s Q fun e t ↦ E (f e) t := by
  rw [Ensures, Ensures, mapError]
  cases x s <;> rfl

/-! ## Ghost state

A program may be written again with a ghost state beside the state, which it extends and never asks.
Such a program erases to the one without. -/

section Ghost

variable {γ : Type}

/-- A program beside a ghost state. -/
def besideGhost (y : EStateM ε σ α) : EStateM ε (σ × γ) α := zoom Prod.fst (fun t s ↦ (t, s.2)) y

/-- A change of the ghost state. -/
def onGhost (g : γ → γ) : EStateM ε (σ × γ) Unit := modify fun s ↦ (s.1, g s.2)

/-- A result without the ghost state. -/
def dropGhost : EStateM.Result ε (σ × γ) α → EStateM.Result ε σ α
  | .ok a s => .ok a s.1
  | .error e s => .error e s.1

/-- Without the ghost state, `x` is `y`. -/
def Erases (x : EStateM ε (σ × γ) α) (y : EStateM ε σ α) : Prop := ∀ s, dropGhost (x s) = y s.1

theorem erases_besideGhost (y : EStateM ε σ α) : Erases (besideGhost (γ := γ) y) y := by
  intro s
  rw [besideGhost, zoom]
  cases y s.1 <;> rfl

theorem erases_pure (a : α) : Erases (γ := γ) (pure a : EStateM ε (σ × γ) α) (pure a) := fun _ ↦ rfl

theorem erases_throw (e : ε) :
    Erases (γ := γ) (throw e : EStateM ε (σ × γ) α) (throw e) := fun _ ↦ rfl

theorem Erases.bind {x : EStateM ε (σ × γ) α} {y : EStateM ε σ α}
    {f : α → EStateM ε (σ × γ) β} {g : α → EStateM ε σ β} (hx : Erases x y)
    (hf : ∀ a, Erases (f a) (g a)) : Erases (x >>= f) (y >>= g) := by
  intro s
  have hs := hx s
  cases h : x s with
  | ok a t =>
    rw [h] at hs
    rw [bind_of_ok h, bind_of_ok hs.symm]
    exact hf a t
  | error e t =>
    rw [h] at hs
    rw [bind_of_error h, bind_of_error hs.symm]
    rfl

theorem Erases.map {x : EStateM ε (σ × γ) α} {y : EStateM ε σ α} (hx : Erases x y) (f : α → β) :
    Erases (f <$> x) (f <$> y) := by
  rw [map_eq_pure_bind, map_eq_pure_bind]
  exact hx.bind fun a ↦ erases_pure (f a)

theorem Erases.onGhost {x : EStateM ε (σ × γ) Unit} {y : EStateM ε σ Unit} (hx : Erases x y)
    (g : γ → γ) : Erases (x >>= fun _ ↦ onGhost g) y := by
  have hy : y = y >>= fun _ ↦ pure ⟨⟩ := (bind_pure y).symm
  rw [hy]
  exact hx.bind fun _ _ ↦ rfl

theorem Erases.ite {c : Prop} [Decidable c] {x x' : EStateM ε (σ × γ) α} {y y' : EStateM ε σ α}
    (hx : Erases x y) (hx' : Erases x' y') :
    Erases (if c then x else x') (if c then y else y') := by
  split
  · exact hx
  · exact hx'

theorem Erases.exists_ok {x : EStateM ε (σ × γ) α} {y : EStateM ε σ α} {s : σ × γ} {a : α} {t : σ}
    (hx : Erases x y) (hy : y s.1 = .ok a t) : ∃ g, x s = .ok a (t, g) := by
  have hs := hx s
  cases h : x s with
  | ok b u =>
    rw [h, hy] at hs
    cases hs
    exact ⟨u.2, rfl⟩
  | error e u =>
    rw [h, hy] at hs
    cases hs

@[simp] theorem ensures_besideGhost {y : EStateM ε σ α} {s : σ × γ} {Q : α → σ × γ → Prop}
    {E : ε → σ × γ → Prop} :
    Ensures (besideGhost y) s Q E
      ↔ Ensures y s.1 (fun a t ↦ Q a (t, s.2)) fun e t ↦ E e (t, s.2) := by
  rw [besideGhost, ensures_zoom]

@[simp] theorem ensures_onGhost {g : γ → γ} {s : σ × γ} {Q : Unit → σ × γ → Prop}
    {E : ε → σ × γ → Prop} :
    Ensures (onGhost g : EStateM ε (σ × γ) Unit) s Q E ↔ Q ⟨⟩ (s.1, g s.2) := Iff.rfl

end Ghost

/-! ## Runs

An invariant of a run may speak of the calls so far and of their results. The rules below make the
induction over the calls once. -/

/-- Makes the calls in order, each on the state the one before left, and collects the results. -/
def runAll (f : ι → EStateM ε σ α) : List ι → σ → List (Except ε α) × σ
  | [], s => ([], s)
  | i :: is, s =>
    match f i s with
    | .ok a t => (.ok a :: (runAll f is t).1, (runAll f is t).2)
    | .error e t => (.error e :: (runAll f is t).1, (runAll f is t).2)

/-- No call of the run threw. -/
def AllReturn (r : List (Except ε α) × σ) : Prop := ∀ x ∈ r.1, ∃ a, x = .ok a

section Runs

variable {f : ι → EStateM ε σ α} {i : ι} {is js : List ι} {s t : σ}

@[simp] theorem runAll_nil : runAll f [] s = ([], s) := rfl

theorem runAll_cons_of_ok {a : α} (h : f i s = .ok a t) :
    runAll f (i :: is) s = (.ok a :: (runAll f is t).1, (runAll f is t).2) := by
  rw [runAll, h]

theorem runAll_cons_of_error {e : ε} (h : f i s = .error e t) :
    runAll f (i :: is) s = (.error e :: (runAll f is t).1, (runAll f is t).2) := by
  rw [runAll, h]

theorem runAll_cons_state : (runAll f (i :: is) s).2 = (runAll f is (after (f i) s)).2 := by
  cases h : f i s with
  | ok a t => rw [runAll_cons_of_ok h, after_of_ok h]
  | error e t => rw [runAll_cons_of_error h, after_of_error h]

theorem runAll_append : runAll f (is ++ js) s
    = ((runAll f is s).1 ++ (runAll f js (runAll f is s).2).1,
        (runAll f js (runAll f is s).2).2) := by
  induction is generalizing s with
  | nil => rfl
  | cons i is ih =>
    cases hi : f i s with
    | ok a t => rw [List.cons_append, runAll_cons_of_ok hi, runAll_cons_of_ok hi, ih]; rfl
    | error e t => rw [List.cons_append, runAll_cons_of_error hi, runAll_cons_of_error hi, ih]; rfl

theorem allReturn_cons_iff :
    AllReturn (runAll f (i :: is) s) ↔ ∃ a t, f i s = .ok a t ∧ AllReturn (runAll f is t) := by
  cases hx : f i s with
  | ok a t =>
    rw [runAll_cons_of_ok hx]
    constructor
    · intro h
      exact ⟨a, t, rfl, fun y hy ↦ h y (List.mem_cons_of_mem _ hy)⟩
    · rintro ⟨a', t', heq, h⟩ y hy
      cases heq
      rcases List.mem_cons.mp hy with rfl | hy
      · exact ⟨a, rfl⟩
      · exact h y hy
  | error e t =>
    rw [runAll_cons_of_error hx]
    constructor
    · intro h
      obtain ⟨a, ha⟩ := h _ List.mem_cons_self
      cases ha
    · rintro ⟨a', t', heq, _⟩
      cases heq

theorem allReturn_append_iff : AllReturn (runAll f (is ++ js) s)
    ↔ AllReturn (runAll f is s) ∧ AllReturn (runAll f js (runAll f is s).2) := by
  rw [runAll_append, AllReturn, AllReturn, AllReturn]
  simp only [List.mem_append]
  exact ⟨fun h ↦ ⟨fun x hx ↦ h x (.inl hx), fun x hx ↦ h x (.inr hx)⟩,
    fun h x hx ↦ hx.elim (h.1 x) (h.2 x)⟩

/-- An invariant that may mention the calls made so far and their results holds at the end of a run
in which no call threw, if each call that returns in its place extends it. -/
theorem runAll_trace_of_allReturn {I : List ι → List (Except ε α) × σ → Prop} (hs : I [] ([], s))
    (hstep : ∀ done i rest, is = done ++ i :: rest → ∀ r, I done r →
      Ensures (f i) r.2 (fun a t ↦ I (done ++ [i]) (r.1 ++ [.ok a], t)) fun _ _ ↦ True)
    (hret : AllReturn (runAll f is s)) : I is (runAll f is s) := by
  have hprefix : ∀ done, done <+: is → AllReturn (runAll f done s) → I done (runAll f done s) := by
    intro done
    induction done using List.reverseRecOn with
    | nil => exact fun _ _ ↦ hs
    | append_singleton done i ih =>
      rintro ⟨rest, hrest⟩ hdone
      rw [List.append_assoc, List.singleton_append] at hrest
      obtain ⟨hdone, hlast⟩ := allReturn_append_iff.mp hdone
      obtain ⟨a, t, hi, _⟩ := allReturn_cons_iff.mp hlast
      rw [runAll_append, runAll_cons_of_ok hi]
      exact (hstep done i rest hrest.symm _ (ih ⟨i :: rest, hrest⟩ hdone)).of_ok hi
  exact hprefix is List.prefix_rfl hret

/-- **The run rule.** An invariant may mention the calls made so far: if each call, made in its
place, returns and extends the invariant, then at every moment of the run it holds and nothing was
thrown. -/
theorem runAll_trace {I : List ι → σ → Prop} (hs : I [] s)
    (hstep : ∀ done i rest, is = done ++ i :: rest → ∀ t, I done t →
      Ensures (f i) t (fun _ u ↦ I (done ++ [i]) u) fun _ _ ↦ False)
    {done : List ι} (hdone : done <+: is) :
    AllReturn (runAll f done s) ∧ I done (runAll f done s).2 := by
  induction done using List.reverseRecOn with
  | nil => exact ⟨by rintro _ ⟨⟩, hs⟩
  | append_singleton done i ih =>
    obtain ⟨rest, hrest⟩ := hdone
    rw [List.append_assoc, List.singleton_append] at hrest
    obtain ⟨hret, hinv⟩ := ih ⟨i :: rest, hrest⟩
    obtain ⟨a, t, hi, ht⟩ := (hstep done i rest hrest.symm _ hinv).exists_ok
    have hlast : AllReturn (runAll f [i] (runAll f done s).2) := by
      rw [allReturn_cons_iff]
      exact ⟨a, t, hi, by rintro _ ⟨⟩⟩
    refine ⟨allReturn_append_iff.mpr ⟨hret, hlast⟩, ?_⟩
    rw [runAll_append, runAll_cons_state, after_of_ok hi]
    exact ht

end Runs

theorem split_trichotomy {l l' r r' : List ι} {x y : ι} (h : l ++ x :: r = l' ++ y :: r') :
    (∃ mid, l = l' ++ y :: mid) ∨ (l = l' ∧ x = y ∧ r = r') ∨
      ∃ mid, l' = l ++ x :: mid ∧ r = mid ++ y :: r' := by
  rcases List.append_eq_append_iff.mp h with ⟨mid, rfl, hmid⟩ | ⟨mid, rfl, hmid⟩ <;>
    rcases mid with _ | ⟨z, mid⟩
  · rw [List.nil_append, List.cons.injEq] at hmid
    exact .inr (.inl ⟨(List.append_nil l).symm, hmid⟩)
  · rw [List.cons_append, List.cons.injEq] at hmid
    obtain ⟨rfl, rfl⟩ := hmid
    exact .inr (.inr ⟨mid, rfl, rfl⟩)
  · rw [List.nil_append, List.cons.injEq] at hmid
    exact .inr (.inl ⟨List.append_nil l', hmid.1.symm, hmid.2.symm⟩)
  · rw [List.cons_append, List.cons.injEq] at hmid
    exact .inl ⟨mid, by rw [hmid.1]⟩

end CppRepo
