import Mathlib.Tactic.Common

/-! Programs as trees of the operations they perform, and contracts for them. A contract says what
each operation may be called with and what can be relied on about its result; a program that keeps
the demands is known to end in the given postcondition whenever the promises hold. -/
namespace RolodexDns.ProgramTrees

/-- A program that ends in a value, or performs an operation and goes on with its result. -/
inductive Prog (Op : Type) (Res : Op → Type) (α : Type) where
  | pure (a : α)
  | op (o : Op) (next : Res o → Prog Op Res α)

variable {Op : Type} {Res : Op → Type} {α β : Type}

namespace Prog

def bind : Prog Op Res α → (α → Prog Op Res β) → Prog Op Res β
  | pure a, f => f a
  | op o next, f => op o fun r => (next r).bind f

theorem bind_assoc {γ : Type} (p : Prog Op Res α) (f : α → Prog Op Res β) (g : β → Prog Op Res γ) :
    (p.bind f).bind g=p.bind fun a => (f a).bind g := by
  induction p with
  | pure a => rfl
  | op o next ih =>
    refine congrArg (op o) ?_
    funext r
    exact ih r

instance : Monad (Prog Op Res) where
  pure := Prog.pure
  bind := Prog.bind

def perform (o : Op) : Prog Op Res (Res o) := op o pure

end Prog

/-- What operations demand of their caller and promise about their results. -/
structure Contract (Op : Type) (Res : Op → Type) where
  demands : Op → Prop
  promises : (o : Op) → Res o → Prop

namespace Prog

/-- The program keeps every demand and ends in `Q`, as long as the promises are kept. -/
def Sat (C : Contract Op Res) : Prog Op Res α → (α → Prop) → Prop
  | pure a, Q => Q a
  | op o next, Q => C.demands o ∧ ∀ r,C.promises o r → (next r).Sat C Q

/-- The program performs operations of one kind only. -/
abbrev Only (p : Prog Op Res α) (ok : Op → Prop) : Prop := p.Sat ⟨ok,fun _ _ => True⟩ fun _ => True

variable {C : Contract Op Res} {p : Prog Op Res α} {f : α → Prog Op Res β} {Q : α → Prop} {R : β → Prop}
  {Q' : α → Prop} {o : Op}

theorem Sat.mono (h : p.Sat C Q) (hi : ∀ a,Q a → Q' a) : p.Sat C Q' := by
  induction p with
  | pure a => exact hi a h
  | op o next ih => exact ⟨h.1,fun r hr => ih r (h.2 r hr)⟩

/-- A contract with weaker demands and stronger promises is kept as well. -/
theorem Sat.weaken {C' : Contract Op Res} (h : p.Sat C Q) (hd : ∀ o,C.demands o → C'.demands o)
    (hp : ∀ o r,C'.promises o r → C.promises o r) : p.Sat C' Q := by
  induction p with
  | pure a => exact h
  | op o next ih => exact ⟨hd o h.1,fun r hr => ih r (h.2 r (hp o r hr))⟩

theorem Sat.and (h : p.Sat C Q) (h' : p.Sat C Q') : p.Sat C fun a => Q a ∧ Q' a := by
  induction p with
  | pure a => exact ⟨h,h'⟩
  | op o next ih => exact ⟨h.1,fun r hr => ih r (h.2 r hr) (h'.2 r hr)⟩

theorem Sat.bind (h : p.Sat C Q) (hf : ∀ a,Q a → (f a).Sat C R) : (p.bind f).Sat C R := by
  induction p with
  | pure a => exact hf a h
  | op o next ih => exact ⟨h.1,fun r hr => ih r (h.2 r hr)⟩

theorem sat_perform (h : C.demands o) : (perform o : Prog Op Res (Res o)).Sat C (C.promises o) :=
  ⟨h,fun _ hr => hr⟩

@[simp] theorem sat_pure_iff {a : α} : (Pure.pure a : Prog Op Res α).Sat C Q ↔ Q a := Iff.rfl

@[simp] theorem sat_perform_iff {Q : Res o → Prop} :
    (perform o : Prog Op Res (Res o)).Sat C Q ↔ C.demands o ∧ ∀ r,C.promises o r → Q r := Iff.rfl

end Prog

/-- Programs that carry a state of their own and may fail; a failure keeps the state. -/
abbrev Routine (ε σ : Type) (Op : Type) (Res : Op → Type) := ExceptT ε (StateT σ (Prog Op Res))

namespace Routine
variable {ε σ : Type} (C : Contract Op Res) (m : Routine ε σ Op Res α) (s : σ)

def perform (o : Op) : Routine ε σ Op Res (Res o) := fun s => (Prog.perform o).bind fun r => .pure (.ok r,s)

/-- Runs a routine and hands its failure over as a value. -/
def attempt : Routine ε σ Op Res (Except ε α) :=
  fun s => (m s).bind fun p => .pure (.ok p.1,p.2)

/-- Started in state `s`, the routine keeps the demands and ends in `Q`. -/
def Ends (Q : Except ε α → σ → Prop) : Prop :=
  Prog.Sat C (m s) fun p => Q p.1 p.2

/-- Started in state `s`, the routine keeps the demands, does not fail, and ends in `P`. -/
def Returns (P : α → σ → Prop) : Prop :=
  Ends C m s fun r s' => ∃ a,r=.ok a ∧ P a s'

/-- From any state the routine keeps the demands, and `Q` holds of its value unless it fails. -/
def Ensures (Q : α → Prop) : Prop :=
  ∀ s,Ends C m s fun r _ => ∀ a,r=.ok a → Q a

section
variable {C : Contract Op Res} {m : Routine ε σ Op Res α} {f : α → Routine ε σ Op Res β} {s : σ}
  {Q : Except ε α → σ → Prop} {o : Op}

theorem Ends.mono {Q' : Except ε α → σ → Prop} (h : Ends C m s Q) (hi : ∀ r s',Q r s' → Q' r s') :
    Ends C m s Q' :=
  Prog.Sat.mono h fun p hp => hi p.1 p.2 hp

theorem ends_pure {a : α} (h : Q (.ok a) s) :
    Ends C (pure a : Routine ε σ Op Res α) s Q := h

theorem ends_throw {e : ε} (h : Q (.error e) s) :
    Ends C (throw e : Routine ε σ Op Res α) s Q := h

theorem Ends.bind {R : Except ε β → σ → Prop} (h : Ends C m s Q)
    (he : ∀ e s',Q (.error e) s' → R (.error e) s')
    (hok : ∀ a s',Q (.ok a) s' → Ends C (f a) s' R) : Ends C (m >>= f) s R := by
  refine Prog.Sat.bind h fun p hp => ?_
  obtain ⟨r,s'⟩ := p
  cases r with
  | error e => exact he e s' hp
  | ok a => exact hok a s' hp

theorem ends_perform {Q : Except ε (Res o) → σ → Prop} (h : C.demands o)
    (hq : ∀ r,C.promises o r → Q (.ok r) s) : Ends C (perform o : Routine ε σ Op Res (Res o)) s Q :=
  Prog.Sat.bind (Prog.sat_perform h) fun r hr => hq r hr

theorem Ends.attempt {R : Except ε (Except ε α) → σ → Prop}
    (h : Ends C m s Q) (hr : ∀ r s',Q r s' → R (.ok r) s') : Ends C (Routine.attempt m) s R :=
  Prog.Sat.bind h fun p hp => hr p.1 p.2 hp

section
variable {P : α → σ → Prop} {o : Op}

theorem returns_pure {a : α} (h : P a s) : Returns C (pure a : Routine ε σ Op Res α) s P :=
  ends_pure ⟨a,rfl,h⟩

theorem Returns.mono {P' : α → σ → Prop} (h : Returns C m s P) (hi : ∀ a s',P a s' → P' a s') :
    Returns C m s P' :=
  Ends.mono h fun _ s' hr => by
    obtain ⟨a,ha,hp⟩ := hr
    exact ⟨a,ha,hi a s' hp⟩

variable {R : Except ε β → σ → Prop}

/-- After a routine that does not fail, whatever can be shown of the rest holds. -/
theorem Returns.andThen (h : Returns C m s P)
    (hf : ∀ a s',P a s' → Ends C (f a) s' R) : Ends C (m >>= f) s R := by
  refine Ends.bind h (fun e s' he => ?_) fun a s' ha => ?_
  · obtain ⟨a,heq,-⟩ := he
    cases heq
  · obtain ⟨a',heq,hp⟩ := ha
    cases heq
    exact hf a s' hp

theorem returns_perform (h : C.demands o) :
    Returns C (perform o : Routine ε σ Op Res (Res o)) s fun r s' => C.promises o r ∧ s'=s :=
  ends_perform h fun r hr => ⟨r,rfl,hr,rfl⟩

theorem returns_step {f : Res o → Routine ε σ Op Res β} (h : C.demands o)
    (hf : ∀ r s',C.promises o r ∧ s'=s → Ends C (f r) s' R) : Ends C (perform o >>= f) s R :=
  (returns_perform h).andThen hf

theorem Returns.attempt (h : Returns C m s P) :
    Returns C (Routine.attempt m) s fun r s' => ∃ a,r=.ok a ∧ P a s' :=
  Ends.attempt h fun r _ hr => ⟨r,rfl,hr⟩

end

variable {Q : α → Prop} {R : β → Prop}

theorem Ensures.mono {Q' : α → Prop} (h : Ensures C m Q) (hi : ∀ a,Q a → Q' a) : Ensures C m Q' :=
  fun s => (h s).mono fun _ _ hr a ha => hi a (hr a ha)

theorem ensures_pure {a : α} (h : Q a) : Ensures C (pure a : Routine ε σ Op Res α) Q :=
  fun _ => ends_pure fun _ ha => Except.ok.inj ha ▸ h

theorem ensures_throw {e : ε} : Ensures C (throw e : Routine ε σ Op Res α) Q :=
  fun _ => ends_throw nofun

theorem Ensures.bind (h : Ensures C m Q) (hf : ∀ a,Q a → Ensures C (f a) R) : Ensures C (m >>= f) R :=
  fun s => (h s).bind (fun _ _ _ => nofun) fun a s' ha => hf a (ha a rfl) s'

theorem ensures_perform (h : C.demands o) :
    Ensures C (perform o : Routine ε σ Op Res (Res o)) (C.promises o) :=
  fun _ => ends_perform h fun _ hr _ ha => Except.ok.inj ha ▸ hr

theorem ensures_step {f : Res o → Routine ε σ Op Res β} (h : C.demands o)
    (hf : ∀ r,C.promises o r → Ensures C (f r) R) :
    Ensures C (perform o >>= f) R := (ensures_perform h).bind hf

theorem Ensures.attempt (h : Ensures C m Q) :
    Ensures C (Routine.attempt m) fun r => ∀ a,r=.ok a → Q a :=
  fun s => (h s).attempt fun _ _ hr _ ha => Except.ok.inj ha ▸ hr

end

end Routine

section
variable {W : Type}

/-- One execution of a program on a world that nothing else touches. -/
inductive Executes (acts : W → (o : Op) → Res o → W → Prop) : Prog Op Res α → W → α → W → Prop where
  | pure (a : α) (w : W) : Executes acts (.pure a) w a w
  | op {w w' w'' : W} {o : Op} {r : Res o} {next : Res o → Prog Op Res α} {a : α} (h : acts w o r w')
      (rest : Executes acts (next r) w' a w'') : Executes acts (.op o next) w a w''

variable {acts : W → (o : Op) → Res o → W → Prop} {w w'' : W}

theorem Executes.bind_inv {p : Prog Op Res α} {f : α → Prog Op Res β} {b : β}
    (h : Executes acts (p.bind f) w b w'') :
    ∃ a w',Executes acts p w a w' ∧ Executes acts (f a) w' b w'' := by
  induction p generalizing w with
  | pure a => exact ⟨a,w,.pure a w,h⟩
  | op o next ih =>
    cases h with
    | op ha rest =>
      obtain ⟨a,w',hp,hf⟩ := ih _ rest
      exact ⟨a,w',.op ha hp,hf⟩

theorem Prog.Sat.executes {C : Contract Op Res} {Inv : W → Prop} {p : Prog Op Res α} {Q : α → Prop} {a : α}
    (hp : p.Sat C Q) (hup : ∀ ⦃w o r w'⦄,Inv w → C.demands o → acts w o r w' → Inv w' ∧ C.promises o r)
    (hw : Inv w) (h : Executes acts p w a w'') : Q a := by
  induction h with
  | pure a w => exact hp
  | op ha _ ih =>
    obtain ⟨hi,hpr⟩ := hup hw hp.1 ha
    exact ih (hp.2 _ hpr) hi

namespace Routine
variable {ε σ : Type} {s : σ}

variable {m : Routine ε σ Op Res α} {x : Except ε β × σ}

theorem Ends.executes {C : Contract Op Res} {Inv : W → Prop} {Q : Except ε α → σ → Prop}
    {r : Except ε α} {s' : σ} (hm : Ends C m s Q)
    (hup : ∀ ⦃w o r w'⦄,Inv w → C.demands o → acts w o r w' → Inv w' ∧ C.promises o r)
    (hw : Inv w) (h : Executes acts (m s) w (r,s') w'') : Q r s' := by
  have hs : Prog.Sat C (m s) fun p => Q p.1 p.2 := hm
  exact hs.executes hup hw h

theorem executes_pure {a : α} {x : Except ε α × σ}
    (h : Executes acts ((pure a : Routine ε σ Op Res α) s) w x w'') : x=(.ok a,s) ∧ w''=w := by
  cases h
  exact ⟨rfl,rfl⟩

theorem executes_bind {f : α → Routine ε σ Op Res β} (h : Executes acts ((m >>= f) s) w x w'') :
    (∃ a s' w',Executes acts (m s) w (.ok a,s') w' ∧ Executes acts (f a s') w' x w'') ∨
      ∃ e s',Executes acts (m s) w (.error e,s') w'' ∧ x=(.error e,s') := by
  obtain ⟨⟨r,s'⟩,w',hm,hf⟩ := Executes.bind_inv h
  cases r with
  | ok a => exact Or.inl ⟨a,s',w',hm,hf⟩
  | error e =>
    cases hf
    exact Or.inr ⟨e,s',hm,rfl⟩

theorem executes_perform_bind {o : Op} {f : Res o → Routine ε σ Op Res β}
    (h : Executes acts (((Routine.perform o : Routine ε σ Op Res (Res o)) >>= f) s) w x w'') :
    ∃ r w',acts w o r w' ∧ Executes acts (f r s) w' x w'' := by
  cases h with
  | op ha rest => exact ⟨_,_,ha,rest⟩

end Routine

end

end RolodexDns.ProgramTrees
