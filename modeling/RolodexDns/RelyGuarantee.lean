import RolodexDns.SharedStores

/-! Programs over a shared store, each seen while the others move. What the others do meanwhile is an order on the
states, and so is how the state moves altogether; what a program has found out once stays true along them. If
nothing comes between, the others leave the state as it is. A store that is logged keeps what has been
performed beside its state, so that an invariant can speak about the past. -/
namespace RolodexDns.RelyGuarantee
open ProgramTrees SharedStores List

variable {σ Op : Type} {Res : Op → Type} {α β ε : Type} {exec : σ → (o : Op) → Res o × σ} {S : Store σ Op Res}

/-- What others do meanwhile, how the state moves altogether, what holds throughout, and what an operation needs
in order to keep that. -/
structure Rules (exec : σ → (o : Op) → Res o × σ) where
  rely : σ → σ → Prop
  moves : σ → σ → Prop
  inv : σ → Prop
  pre : Op → σ → Prop
  rely_refl : ∀ s,rely s s
  rely_trans : ∀ {s t u},rely s t → rely t u → rely s u
  rely_moves : ∀ {s t},rely s t → moves s t
  trans : ∀ {s t u},moves s t → moves t u → moves s u
  keeps : ∀ {s o},inv s → pre o s → inv (exec s o).2
  steps : ∀ {s o},inv s → pre o s → moves s (exec s o).2

section
variable (rules : Rules exec)

/-- However the state has moved by then, each operation is performed where it may be, and the end is as told. -/
def Rules.Safe (post : α → σ → Prop) : Prog Op Res α → σ → Prop
  | .pure a, s => ∀ t,rules.rely s t → rules.inv t → post a t
  | .op o next, s => ∀ t,rules.rely s t → rules.inv t → rules.pre o t ∧ Rules.Safe post (next (exec t o).1) (exec t o).2

variable {rules} {post post' : α → σ → Prop} {p : Prog Op Res α} {s t : σ}

theorem Rules.Safe.later (h : rules.Safe post p s) (hr : rules.rely s t) : rules.Safe post p t := by
  cases p with
  | pure a | op o next => exact fun u hu => h u (rules.rely_trans hr hu)

/-- It is enough to look at the states in which the program is resumed. -/
theorem safe_of_later (h : ∀ t,rules.rely s t → rules.inv t → rules.Safe post p t) : rules.Safe post p s := by
  cases p with
  | pure a | op o next => exact fun t hst ht => h t hst ht t (rules.rely_refl t) ht

theorem Rules.Safe.mono (h : rules.Safe post p s) (hi : ∀ a t,rules.moves s t → post a t → post' a t) :
    rules.Safe post' p s := by
  induction p generalizing s with
  | pure a => exact fun t hst ht => hi a t (rules.rely_moves hst) (h t hst ht)
  | op o next ih =>
    intro t hst ht
    obtain ⟨hp,hn⟩ := h t hst ht
    have hm := rules.trans (rules.rely_moves hst) (rules.steps ht hp)
    exact ⟨hp,ih _ hn fun a u hu => hi a u (rules.trans hm hu)⟩

theorem safe_pure {a : α} (h : ∀ t,rules.rely s t → rules.inv t → post a t) : rules.Safe post (pure a) s := h

theorem safe_perform {o : Op} {f : Res o → Prog Op Res α} (hp : ∀ t,rules.rely s t → rules.inv t → rules.pre o t)
    (hf : ∀ t,rules.rely s t → rules.inv t → rules.inv (exec t o).2 → rules.Safe post (f (exec t o).1) (exec t o).2) :
    rules.Safe post (Prog.perform o >>= f) s :=
  fun t hst ht => ⟨hp t hst ht,hf t hst ht (rules.keeps ht (hp t hst ht))⟩

theorem Rules.Safe.bind {f : α → Prog Op Res β} {post' : β → σ → Prop} (h : rules.Safe post p s)
    (hf : ∀ a t,rules.moves s t → post a t → rules.Safe post' (f a) t) : rules.Safe post' (p >>= f) s := by
  induction p generalizing s with
  | pure a => exact safe_of_later fun t hst ht => hf a t (rules.rely_moves hst) (h t hst ht)
  | op o next ih =>
    intro t hst ht
    obtain ⟨hp,hn⟩ := h t hst ht
    refine ⟨hp,ih _ hn fun a u htu hu => hf a u ?_ hu⟩
    exact rules.trans (rules.rely_moves hst) (rules.trans (rules.steps ht hp) htu)

/-- A program of operations that may be performed wherever something is known, and that leave it so. -/
theorem safe_of_sat {C : Contract Op Res} {known : σ → Prop} (hr : ∀ s t,rules.rely s t → known s → known t)
    (hd : ∀ o,C.demands o → ∀ s,known s → rules.pre o s ∧ known (exec s o).2) (hp : ∀ o r,C.promises o r)
    (h : p.Sat C fun _ => True) (hs : known s) : rules.Safe (fun _ t => known t) p s := by
  induction p generalizing s with
  | pure a => exact fun t hst _ => hr s t hst hs
  | op o next ih =>
    intro t hst _
    obtain ⟨hpr,hn⟩ := hd o h.1 t (hr s t hst hs)
    exact ⟨hpr,ih _ (h.2 _ (hp o _)) hn⟩

end

section

abbrev Attempt (ε Op : Type) (Res : Op → Type) := ExceptT ε (Prog Op Res)

def Attempt.perform (o : Op) : Attempt ε Op Res (Res o) := ExceptT.lift (Prog.perform o)

def Attempt.ofExcept (x : Except ε α) : Attempt ε Op Res α := ExceptT.mk (pure x)

def Attempt.require (c : Prop) [Decidable c] (e : ε) : Attempt ε Op Res Unit :=
  ofExcept (if c then .ok () else .error e)

variable {rules : Rules exec} {post post' : α → σ → Prop} {m : Attempt ε Op Res α} {s : σ}

/-- The end is as told, whether the program succeeds or fails. -/
def Rules.Ends (rules : Rules exec) (fail : σ → Prop) (post : α → σ → Prop) (m : Attempt ε Op Res α) (s : σ) : Prop :=
  rules.Safe (fun r t => (∀ a,r=.ok a → post a t) ∧ (∀ e,r=.error e → fail t)) m.run s

variable {fail : σ → Prop}

variable {a : α} {c : Prop}

theorem ends_pure (h : ∀ t,rules.rely s t → rules.inv t → post a t) :
    rules.Ends fail post (pure a : Attempt ε Op Res α) s := by
  intro t hst ht
  refine ⟨fun b hb => ?_,fun e he => nomatch he⟩
  cases hb
  exact h t hst ht

variable {e : ε}

theorem ends_throw (h : ∀ t,rules.rely s t → rules.inv t → fail t) :
    rules.Ends fail post (throw e : Attempt ε Op Res α) s :=
  fun t hst ht => ⟨fun _ ha => (nomatch ha),fun _ _ => h t hst ht⟩

theorem ends_of_later (h : ∀ t,rules.rely s t → rules.inv t → rules.Ends fail post m t) : rules.Ends fail post m s :=
  safe_of_later h

theorem Rules.Ends.mono_fail {fail' : σ → Prop} (h : rules.Ends fail post m s) (hi : ∀ t,fail t → fail' t) :
    rules.Ends fail' post m s :=
  Rules.Safe.mono h fun _ t _ hr => ⟨hr.1,fun e he => hi t (hr.2 e he)⟩

theorem Rules.Ends.mono (h : rules.Ends fail post m s) (hi : ∀ a t,rules.moves s t → post a t → post' a t) :
    rules.Ends fail post' m s :=
  Rules.Safe.mono h fun _ t hst hr => ⟨fun a ha => hi a t hst (hr.1 a ha),hr.2⟩

variable {f : α → Attempt ε Op Res β}

/-- What holds after a failure goes on holding meanwhile. -/
theorem Rules.Ends.bind {post' : β → σ → Prop} (hfa : ∀ s t,rules.rely s t → fail s → fail t)
    (h : rules.Ends fail post m s) (hf : ∀ a t,rules.moves s t → post a t → rules.Ends fail post' (f a) t) :
    rules.Ends fail post' (m >>= f) s := by
  refine Rules.Safe.bind h fun r t hst hr => ?_
  cases r with
  | error e => exact fun u htu _ => ⟨fun _ ha => (nomatch ha),fun _ _ => hfa t u htu (hr.2 e rfl)⟩
  | ok a => exact hf a t hst (hr.1 a rfl)

variable {o : Op}

theorem ends_perform {f : Res o → Attempt ε Op Res α} (hp : ∀ t,rules.rely s t → rules.inv t → rules.pre o t)
    (hf : ∀ t,rules.rely s t → rules.inv t → rules.inv (exec t o).2 →
      rules.Ends fail post (f (exec t o).1) (exec t o).2) :
    rules.Ends fail post (Attempt.perform o >>= f) s :=
  fun t hst ht => ⟨hp t hst ht,hf t hst ht (rules.keeps ht (hp t hst ht))⟩

variable {x : Except ε α}

theorem ends_ofExcept {post : β → σ → Prop}
    (hfa : ∀ t,rules.rely s t → rules.inv t → fail t) (hf : ∀ a,x=.ok a → rules.Ends fail post (f a) s) :
    rules.Ends fail post (Attempt.ofExcept x >>= f) s := by
  cases x with
  | error e => exact ends_throw hfa
  | ok a => exact hf a rfl

theorem ends_ok {post : β → σ → Prop} (hx : x=.ok a)
    (hf : rules.Ends fail post (f a) s) : rules.Ends fail post (Attempt.ofExcept x >>= f) s := by
  subst hx
  exact hf

theorem ends_require [Decidable c] {f : Unit → Attempt ε Op Res α}
    (hfa : ∀ t,rules.rely s t → rules.inv t → fail t)
    (hf : c → rules.Ends fail post (f ()) s) : rules.Ends fail post (Attempt.require c e >>= f) s := by
  refine ends_ofExcept hfa fun _ h => hf ?_
  split at h
  · assumption
  · cases h

/-- Unless it fails, the end is as told. -/
abbrev Rules.Reaches (rules : Rules exec) (post : α → σ → Prop) (m : Attempt ε Op Res α) (s : σ) : Prop :=
  rules.Ends (fun _ => True) post m s

theorem Rules.Ends.reaches (h : rules.Ends fail post m s) : rules.Reaches post m s :=
  Rules.Safe.mono h fun _ _ _ hr => ⟨hr.1,fun _ _ => trivial⟩

theorem reaches_pure (h : ∀ t,rules.rely s t → rules.inv t → post a t) :
    rules.Reaches post (pure a : Attempt ε Op Res α) s :=
  ends_pure h

theorem reaches_throw : rules.Reaches post (throw e : Attempt ε Op Res α) s := ends_throw fun _ _ _ => trivial

theorem Rules.Reaches.mono (h : rules.Reaches post m s) (hi : ∀ a t,rules.moves s t → post a t → post' a t) :
    rules.Reaches post' m s :=
  Rules.Ends.mono h hi

theorem reaches_of_later (h : ∀ t,rules.rely s t → rules.inv t → rules.Reaches post m t) : rules.Reaches post m s :=
  ends_of_later h

theorem Rules.Reaches.bind {post' : β → σ → Prop} (h : rules.Reaches post m s)
    (hf : ∀ a t,rules.moves s t → post a t → rules.Reaches post' (f a) t) : rules.Reaches post' (m >>= f) s :=
  Rules.Ends.bind (fun _ _ _ _ => trivial) h hf

theorem reaches_perform {f : Res o → Attempt ε Op Res α} (hp : ∀ t,rules.rely s t → rules.inv t → rules.pre o t)
    (hf : ∀ t,rules.rely s t → rules.inv t → rules.inv (exec t o).2 →
      rules.Reaches post (f (exec t o).1) (exec t o).2) :
    rules.Reaches post (Attempt.perform o >>= f) s :=
  ends_perform hp hf

theorem reaches_step {f : Res o → Attempt ε Op Res α} (hp : ∀ t,rules.pre o t)
    (hf : ∀ t,rules.rely s t → rules.inv t → rules.inv (exec t o).2 →
      rules.Reaches post (f (exec t o).1) (exec t o).2) :
    rules.Reaches post (Attempt.perform o >>= f) s :=
  reaches_perform (fun t _ _ => hp t) hf

theorem reaches_performed (hp : ∀ t,rules.rely s t → rules.inv t → rules.pre o t) :
    rules.Reaches (fun _ _ => True) (Attempt.perform o : Attempt ε Op Res (Res o)) s :=
  fun t hst ht => ⟨hp t hst ht,fun _ _ _ => ⟨fun _ _ => trivial,fun _ _ => trivial⟩⟩

theorem reaches_ofExcept {post : β → σ → Prop}
    (hf : ∀ a,x=.ok a → rules.Reaches post (f a) s) : rules.Reaches post (Attempt.ofExcept x >>= f) s :=
  ends_ofExcept (fun _ _ _ => trivial) hf

theorem reaches_require [Decidable c] {f : Unit → Attempt ε Op Res α} (hf : c → rules.Reaches post (f ()) s) :
    rules.Reaches post (Attempt.require c e >>= f) s :=
  ends_require (fun _ _ _ => trivial) hf

def Attempt.Only (ok : Op → Prop) (m : Attempt ε Op Res α) : Prop := m.run.Sat ⟨ok,fun _ _ => True⟩ fun _ => True

variable {ok : Op → Prop}

theorem only_pure : (pure a : Attempt ε Op Res α).Only ok := trivial

theorem only_throw : (throw e : Attempt ε Op Res α).Only ok := trivial

theorem only_perform (h : ok o) : (Attempt.perform o : Attempt ε Op Res (Res o)).Only ok :=
  ⟨h,fun _ _ => trivial⟩

theorem only_ofExcept : (Attempt.ofExcept x : Attempt ε Op Res α).Only ok := trivial

theorem only_require [Decidable c] : (Attempt.require c e : Attempt ε Op Res Unit).Only ok :=
  trivial

theorem only_bind (h : m.Only ok) (hf : ∀ a,(f a).Only ok) : (m >>= f).Only ok := by
  refine Prog.Sat.bind h fun r _ => ?_
  cases r with
  | error e => exact trivial
  | ok a => exact hf a

theorem only_step {f : Res o → Attempt ε Op Res α} (h : ok o) (hf : ∀ r,(f r).Only ok) :
    (Attempt.perform o >>= f).Only ok := only_bind (only_perform h) hf

theorem only_check (hf : ∀ a,(f a).Only ok) :
    (Attempt.ofExcept x >>= f).Only ok := only_bind only_ofExcept hf

theorem only_ofExcept_bind (hf : ∀ a,x=.ok a → (f a).Only ok) :
    (Attempt.ofExcept x >>= f).Only ok := by
  cases x with
  | error e => exact only_throw
  | ok a => exact hf a rfl

theorem Attempt.Only.mono {ok ok' : Op → Prop} (h : m.Only ok) (hi : ∀ o,ok o → ok' o) : m.Only ok' :=
  Prog.Sat.weaken h hi fun _ _ _ => trivial

/-- What is known, and left so by the operations given, is known at the end, also if that is a failure. -/
theorem Attempt.Only.keeps {known : σ → Prop} (h : m.Only ok) (hr : ∀ s t,rules.rely s t → known s → known t)
    (hok : ∀ o,ok o → ∀ s,known s → rules.pre o s ∧ known (exec s o).2) (hs : known s) :
    rules.Ends known (fun _ t => known t) m s :=
  (safe_of_sat hr hok (fun _ _ => trivial) h hs).mono fun _ _ _ ht => ⟨fun _ _ => ht,fun _ _ => ht⟩

theorem Attempt.Only.reaches (h : m.Only ok) (hok : ∀ o,ok o → ∀ s,rules.pre o s) :
    rules.Reaches (fun _ _ => True) m s :=
  Attempt.Only.keeps h (fun _ _ _ _ => trivial) (fun o ho s _ => ⟨hok o ho s,trivial⟩) trivial

end

section
variable {rules : Rules S.exec} {post : α → σ → Prop} {p : Prog Op Res α} {s : σ}

theorem Rules.Safe.runAlone (h : rules.Safe post p s) (hs : rules.inv s) :
    rules.inv (S.runAlone p s).2 ∧ rules.moves s (S.runAlone p s).2 ∧ post (S.runAlone p s).1 (S.runAlone p s).2 := by
  induction p generalizing s with
  | pure a => exact ⟨hs,rules.rely_moves (rules.rely_refl s),h s (rules.rely_refl s) hs⟩
  | op o next ih =>
    obtain ⟨hp,hn⟩ := h s (rules.rely_refl s) hs
    obtain ⟨hi,hm,hpo⟩ := ih _ hn (rules.keeps hs hp)
    exact ⟨hi,rules.trans (rules.steps hs hp) hm,hpo⟩

theorem Rules.Safe.performed (h : rules.Safe post p s) (hs : rules.inv s) :
    ∀ e∈S.performed p s,rules.inv e.1 ∧ rules.pre e.2 e.1 := by
  induction p generalizing s with
  | pure a => exact fun e he => nomatch he
  | op o next ih =>
    obtain ⟨hp,hn⟩ := h s (rules.rely_refl s) hs
    exact forall_mem_cons.mpr ⟨⟨hs,hp⟩,ih _ hn (rules.keeps hs hp)⟩

end

section
variable {rules : Rules S.exec} {programs : Set (Prog Op Res α)} {allowed : σ → Op → Prop} {P P' : Pool σ Op Res α}

/-- What holds of a pool of programs that keep the rules. -/
structure Rules.Holds (rules : Rules S.exec) (P : Pool σ Op Res α) : Prop where
  state : rules.inv P.state
  tasks : ∀ p∈P.tasks,rules.Safe (fun _ _ => True) p P.state

theorem Rules.Holds.step (h : rules.Holds P) (hr : ∀ s t,rules.moves s t → rules.rely s t)
    (hpr : ∀ p∈programs,∀ s,rules.Safe (fun _ _ => True) p s)
    (hs : Step S programs allowed P P') : rules.Holds P' := by
  cases hs with
  | call s tasks hp => exact ⟨h.state,forall_mem_cons.mpr ⟨hpr _ hp s,h.tasks⟩⟩
  | @act s o before after next he ha =>
    obtain ⟨hpe,hn⟩ := h.tasks (.op o next) (by simp) s (rules.rely_refl s) h.state
    have hm := hr _ _ (rules.steps h.state hpe)
    refine ⟨rules.keeps h.state hpe,fun p hp => ?_⟩
    rcases mem_append.mp hp with hp | hp
    · exact (h.tasks p (by simp [hp])).later hm
    · rcases mem_cons.mp hp with rfl | hp
      · exact hn
      · exact (h.tasks p (by simp [hp])).later hm
  | done s before after a =>
    refine ⟨h.state,fun p hp => h.tasks p ?_⟩
    rcases mem_append.mp hp with hp | hp
    · simp [hp]
    · simp [hp]

theorem Rules.Holds.run (h : rules.Holds P) (hr : ∀ s t,rules.moves s t → rules.rely s t)
    (hp : ∀ p∈programs,∀ s,rules.Safe (fun _ _ => True) p s)
    (hru : Run S programs allowed P P') : rules.Holds P' := by
  induction hru with
  | refl => exact h
  | tail _ hs ih => exact ih.step hr hp hs

end

/-- A state, and what has been performed up to it with which results, the latest first. -/
structure Logged (σ Op : Type) (Res : Op → Type) where
  state : σ
  log : List ((o : Op) × Res o)

def logged (S : Store σ Op Res) : Store (Logged σ Op Res) Op Res where
  enabled s o := S.enabled s.state o
  exec s o := ((S.exec s.state o).1,⟨(S.exec s.state o).2,⟨o,(S.exec s.state o).1⟩::s.log⟩)

end RolodexDns.RelyGuarantee
