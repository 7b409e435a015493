import Mathlib.Logic.Relation
import RolodexDns.ProgramTrees

/-! Programs running side by side over one shared world. A step performs one operation of one task,
so that tasks interleave at every operation; the log keeps everything that happened. -/
namespace RolodexDns.TaskPools
open ProgramTrees List

variable {W Op : Type} {Res : Op → Type} {J α : Type}

/-- How operations act on the world, how the world changes by itself, and the program of each job. -/
structure System (W : Type) (Op : Type) (Res : Op → Type) (J α : Type) where
  acts : W → (o : Op) → Res o → W → Prop
  drifts : W → W → Prop
  program : J → Prog Op Res α

inductive Event (Op : Type) (Res : Op → Type) (J α : Type) where
  | started (job : J)
  | performed (o : Op) (r : Res o)
  | finished (job : J) (a : α)

structure Pool (W : Type) (Op : Type) (Res : Op → Type) (J α : Type) where
  world : W
  tasks : List (J × Prog Op Res α)
  log : List (Event Op Res J α)

def Pool.initial (w : W) : Pool W Op Res J α := ⟨w,[],[]⟩

/-- One step: a job is taken up, a task performs its next operation, ends or is given up, or the
world moves on by itself. -/
inductive Step (S : System W Op Res J α) : Pool W Op Res J α → Pool W Op Res J α → Prop where
  | start (w tasks log) (job : J) :
    Step S ⟨w,tasks,log⟩ ⟨w,(job,S.program job)::tasks,log++[.started job]⟩
  | act {w w' : W} {o : Op} {r : Res o} (before after log) (job : J) (next : Res o → Prog Op Res α)
      (h : S.acts w o r w') :
    Step S ⟨w,before++(job,.op o next)::after,log⟩
      ⟨w',before++(job,next r)::after,log++[.performed o r]⟩
  | finish (w before after log) (job : J) (a : α) :
    Step S ⟨w,before++(job,.pure a)::after,log⟩ ⟨w,before++after,log++[.finished job a]⟩
  | abandon (w before after log) (task : J × Prog Op Res α) :
    Step S ⟨w,before++task::after,log⟩ ⟨w,before++after,log⟩
  | drift {w w' : W} (tasks log) (h : S.drifts w w') : Step S ⟨w,tasks,log⟩ ⟨w',tasks,log⟩

abbrev Run (S : System W Op Res J α) := Relation.ReflTransGen (Step S)

section
variable {S : System W Op Res J α} {P P' : Pool W Op Res J α}

theorem Step.log_append (h : Step S P P') : ∃ new,P'.log=P.log++new := by
  cases h with
  | start w tasks log job => exact ⟨_,rfl⟩
  | act before after log job next ha => exact ⟨_,rfl⟩
  | finish w before after log job a => exact ⟨_,rfl⟩
  | abandon w before after log task => exact ⟨[],(append_nil _).symm⟩
  | drift tasks log hd => exact ⟨[],(append_nil _).symm⟩

theorem Step.log_subset (h : Step S P P') : P.log⊆P'.log := by
  obtain ⟨new,hnew⟩ := h.log_append
  rw [hnew]
  exact subset_append_left _ _

/-- The world keeps `Inv` and the promises of the contract, for the events under consideration. -/
structure Upholds (S : System W Op Res J α) (events : Set (Event Op Res J α)) (C : Contract Op Res)
    (Inv : W → Prop) : Prop where
  acts : ∀ {w o r w'},Inv w → C.demands o → S.acts w o r w' → .performed o r∈events →
    Inv w' ∧ C.promises o r
  drifts : ∀ {w w'},Inv w → S.drifts w w' → Inv w'

/-- What a pool keeps while it runs: the world's invariant, every task on course for its job's
postcondition, and every result in it. -/
structure Safe (C : Contract Op Res) (Inv : W → Prop) (Q : J → α → Prop) (P : Pool W Op Res J α) :
    Prop where
  world : Inv P.world
  tasks : ∀ t∈P.tasks,t.2.Sat C (Q t.1)
  results : ∀ job a,.finished job a∈P.log → Q job a

variable {events : Set (Event Op Res J α)} {C : Contract Op Res} {Inv : W → Prop} {Q : J → α → Prop} {w : W}

theorem Step.safe (hup : Upholds S events C Inv)
    (hj : ∀ job,.started job∈events → (S.program job).Sat C (Q job)) (hstep : Step S P P')
    (hl : ∀ e∈P'.log,e∈events) (h : Safe C Inv Q P) : Safe C Inv Q P' := by
  cases hstep with
  | start w tasks log job =>
    refine ⟨h.world,fun t ht => ?_,fun j a hf => h.results j a (by simpa using hf)⟩
    rcases mem_cons.mp ht with rfl | ht
    · exact hj job (hl _ (by simp))
    · exact h.tasks t ht
  | @act w w' o r before after log job next hac =>
    have hta : (Prog.op o next).Sat C (Q job) := h.tasks (job,.op o next) (by simp)
    obtain ⟨hi,hp⟩ := hup.acts h.world hta.1 hac (hl _ (by simp))
    refine ⟨hi,fun t ht => ?_,fun j a hf => h.results j a (by simpa using hf)⟩
    rcases mem_append.mp ht with hb | ht
    · exact h.tasks t (by simp [hb])
    · rcases mem_cons.mp ht with rfl | ha
      · exact hta.2 r hp
      · exact h.tasks t (by simp [ha])
  | finish w before after log job a =>
    have hta : (Prog.pure a).Sat C (Q job) := h.tasks (job,.pure a) (by simp)
    refine ⟨h.world,fun t ht => h.tasks t ?_,fun j b hf => ?_⟩
    · rcases mem_append.mp ht with hb | ha
      · simp [hb]
      · simp [ha]
    · rcases mem_append.mp hf with ho | hnew
      · exact h.results j b ho
      · cases mem_singleton.mp hnew
        exact hta
  | abandon w before after log task =>
    refine ⟨h.world,fun t ht => h.tasks t ?_,h.results⟩
    rcases mem_append.mp ht with hb | ha
    · simp [hb]
    · simp [ha]
  | drift tasks log hd => exact ⟨hup.drifts h.world hd,h.tasks,h.results⟩

theorem Run.safe (hup : Upholds S events C Inv)
    (hj : ∀ job,.started job∈events → (S.program job).Sat C (Q job)) (hrun : Run S P P')
    (hl : ∀ e∈P'.log,e∈events) (h : Safe C Inv Q P) : Safe C Inv Q P' := by
  induction hrun with
  | refl => exact h
  | tail _ hstep ih => exact hstep.safe hup hj hl (ih fun e he => hl e (hstep.log_subset he))

theorem Safe.initial (h : Inv w) : Safe C Inv Q (Pool.initial w : Pool W Op Res J α) :=
  ⟨h,by simp [Pool.initial],by simp [Pool.initial]⟩

theorem Run.started (hrun : Run S (.initial w) P) {job : J} {a : α} (hf : .finished job a∈P.log) :
    .started job∈P.log := by
  let free : Contract Op Res := ⟨fun _ => True,fun _ _ => True⟩
  have hs : ∀ (p : Prog Op Res α) {j},.started j∈P.log → p.Sat free fun _ => .started j∈P.log := by
    intro p j hj
    induction p with
    | pure a => exact hj
    | op o next ih => exact ⟨trivial,fun r _ => ih r⟩
  have hup : Upholds S {e | e∈P.log} free fun _ => True :=
    ⟨fun _ _ _ _ => ⟨trivial,trivial⟩,fun _ _ => trivial⟩
  exact (Run.safe (Q := fun j _ => .started j∈P.log) hup (fun j hj => hs _ hj) hrun (fun _ he => he)
    (Safe.initial trivial)).results job a hf

end

section
variable {τ : Type} {S : System W Op Res J α} {stamp : W → τ} {w : W} {P P' : Pool W Op Res J α}
  {history : List (τ × Event Op Res J α)}

/-- A run from `w` with what the world showed, such as the time, when each event happened. -/
inductive Stamped (S : System W Op Res J α) (stamp : W → τ) (w : W) :
    Pool W Op Res J α → List (τ × Event Op Res J α) → Prop where
  | initial : Stamped S stamp w (.initial w) []
  | step {P P' : Pool W Op Res J α} {history : List (τ × Event Op Res J α)} {new : List (Event Op Res J α)}
      (hrun : Stamped S stamp w P history) (hstep : Step S P P') (hnew : P'.log=P.log++new) :
      Stamped S stamp w P' (history++new.map (stamp P.world,·))

theorem Stamped.run (h : Stamped S stamp w P history) : Run S (.initial w) P := by
  induction h with
  | initial => exact .refl
  | step _ hstep _ ih => exact ih.tail hstep

/-- Every run can be stamped. -/
theorem Run.stamped (h : Run S (.initial w) P) : ∃ history,Stamped S stamp w P history := by
  induction h with
  | refl => exact ⟨[],.initial⟩
  | tail _ hstep ih =>
    obtain ⟨history,hrun⟩ := ih
    obtain ⟨new,hnew⟩ := hstep.log_append
    exact ⟨_,.step hrun hstep hnew⟩

end

section

/-- Executes a program alone on a world that answers each operation, keeping the events. -/
def execute (answer : W → (o : Op) → Res o × W) : Prog Op Res α → W → α × W × List (Event Op Res J α)
  | .pure a, w => (a,w,[])
  | .op o next, w =>
    let (r,w') := answer w o
    let (a,w'',events) := execute answer (next r) w'
    (a,w'',.performed o r::events)

variable {S : System W Op Res J α} {answer : W → (o : Op) → Res o × W}

theorem execute_executes {acts : W → (o : Op) → Res o → W → Prop}
    (ha : ∀ w o,acts w o (answer w o).1 (answer w o).2) (p : Prog Op Res α) (w : W) :
    Executes acts p w (execute (J := J) answer p w).1 (execute (J := J) answer p w).2.1 := by
  induction p generalizing w with
  | pure a => exact .pure a w
  | op o next ih => exact .op (ha w o) (ih _ _)

private theorem execute_run (ha : ∀ w o,S.acts w o (answer w o).1 (answer w o).2) (job : J)
    (p : Prog Op Res α) (w : W) (log : List (Event Op Res J α)) :
    Run S ⟨w,[(job,p)],log⟩
      ⟨(execute (J := J) answer p w).2.1,[],
        log++(execute answer p w).2.2++[.finished job (execute (J := J) answer p w).1]⟩ := by
  induction p generalizing w log with
  | pure a =>
    refine Relation.ReflTransGen.single ?_
    simpa [execute] using Step.finish (S := S) w [] [] log job a
  | op o next ih =>
    refine Relation.ReflTransGen.head (Step.act (S := S) [] [] log job next (ha w o)) ?_
    have hr := ih (answer w o).1 (answer w o).2 (log++[.performed o (answer w o).1])
    simpa [execute] using hr

/-- What executing a program leaves behind are the world's own answers. -/
theorem mem_execute {p : Prog Op Res α} {w : W} {e : Event Op Res J α} (h : e∈(execute answer p w).2.2) :
    ∃ w' o,e=.performed o (answer w' o).1 := by
  induction p generalizing w with
  | pure a => simp [execute] at h
  | op o next ih =>
    rcases mem_cons.mp h with rfl | h
    · exact ⟨w,o,rfl⟩
    · exact ih _ h

theorem run_execute (ha : ∀ w o,S.acts w o (answer w o).1 (answer w o).2) (job : J) (w : W)
    (log : List (Event Op Res J α)) :
    Run S ⟨w,[],log⟩
      ⟨(execute (J := J) answer (S.program job) w).2.1,[],
        log++[.started job]++(execute answer (S.program job) w).2.2 ++
          [.finished job (execute (J := J) answer (S.program job) w).1]⟩ :=
  Relation.ReflTransGen.head (Step.start w [] log job)
    (execute_run ha job (S.program job) w (log++[.started job]))

end

end RolodexDns.TaskPools
