import Mathlib.Data.List.Basic

/-! Tables that are written behind a memory. An insertion is remembered at once and then put on a bounded
queue; one worker receives requests from the queue and executes their statements, one after another. A clear
forgets what is remembered and then erases rows. -/
namespace RolodexDns.WriteBehind
open List

/-- What is remembered (`M`), requested (`R`), executed (`S`), written to (`T`), the rows by their keys
(`K`), and the clears (`C`). -/
structure Design (M R S T K C : Type) where
  remember : R → M → M
  persists : R → Bool
  statements : R → List S
  exec : Nat → S → T → T
  makes : S → List K
  forget : C → M → M
  erase : C → T → T
  hits : C → K → Bool
  present : T → K → Prop
  capacity : Nat
  batch : Nat

/-- A statement leaves no rows but its own and those that were there, and a clear none that it hits. -/
structure Design.Lawful {M R S T K C : Type} (D : Design M R S T K C) : Prop where
  exec : ∀ {now s t k},D.present (D.exec now s t) k → k∈D.makes s ∨ D.present t k
  erase : ∀ {c t k},D.present (D.erase c t) k → D.present t k ∧ D.hits c k=false

/-- Requests and statements carry the number of the event that inserted them, rows that of the insertion
they were last made by, and clears that of the event they began with. -/
structure State (M R S T K C : Type) where
  count : Nat
  memory : M
  announced : List (Nat × R)
  queue : List (Nat × R)
  running : List (Nat × S)
  received : Nat
  writing : Bool
  table : T
  origin : K → Nat
  clearing : List (Nat × C)
  cleared : List (Nat × C)

inductive Event (R C : Type) where
  | insert (r : R)
  | send (i : Nat)
  | receive
  | write (now : Nat)
  | clear (c : C)
  | erase (i : Nat)

section
variable {M R S T K C : Type} [DecidableEq K] (D : Design M R S T K C) (s : State M R S T K C)

def stamped (e : Nat × R) : List (Nat × S) := (D.statements e.2).map fun st => (e.1,st)

/-- What an event does, but for its number. -/
def act : Event R C → State M R S T K C
  | .insert r =>
    { s with
      memory := D.remember r s.memory
      announced := if D.persists r then s.announced++[(s.count,r)] else s.announced }
  | .send i =>
    match s.announced[i]? with
    | none => s
    | some e =>
      { s with
        announced := s.announced.eraseIdx i
        queue := if s.queue.length<D.capacity then s.queue++[e] else s.queue }
  | .receive =>
    match s.queue with
    | [] => s
    | e::rest =>
      -- no more is received once the worker has begun to write
      if s.writing || D.batch ≤ s.received then s
      else { s with queue := rest, running := s.running++stamped D e, received := s.received+1 }
  | .write now =>
    match s.running with
    | [] => { s with writing := false, received := 0 }
    | (n,st)::rest =>
      { s with
        running := rest
        writing := true
        table := D.exec now st s.table
        origin := fun k => if k∈D.makes st then n else s.origin k }
  | .clear c => { s with memory := D.forget c s.memory, clearing := s.clearing++[(s.count,c)] }
  | .erase i =>
    match s.clearing[i]? with
    | none => s
    | some e => { s with table := D.erase e.2 s.table, clearing := s.clearing.eraseIdx i, cleared := s.cleared++[e] }

def step (e : Event R C) : State M R S T K C := { act D s e with count := s.count+1 }

def run (events : List (Event R C)) : State M R S T K C := events.foldl (step D) s

def pending : List (Nat × S) :=
  s.running++s.queue.flatMap (stamped D)++s.announced.flatMap (stamped D)

def Drained : Prop := s.announced=[] ∧ s.queue=[] ∧ s.running=[]

def initial (memory : M) (table : T) : State M R S T K C := ⟨0,memory,[],[],[],0,false,table,fun _ => 0,[],[]⟩

/-- Rows are erased only when nothing that they are cleared of is still to be written. -/
def Settles : Event R C → Prop
  | .erase i => ∀ e,s.clearing[i]?=some e → ∀ p∈pending D s,∀ k∈D.makes p.2,D.hits e.2 k=true → e.1 ≤ p.1
  | _ => True

/-- All events of a run meet a condition where they happen. -/
def Meets (P : State M R S T K C → Event R C → Prop) : State M R S T K C → List (Event R C) → Prop
  | _, [] => True
  | s, e::events => P s e ∧ Meets P (step D s e) events

end

section
variable {M R S T K C : Type} {D : Design M R S T K C} {s : State M R S T K C} {e : Event R C}

/-- What is in the table or on its way there was inserted after every clear of it began. -/
structure Fresh (D : Design M R S T K C) (s : State M R S T K C) : Prop where
  begun : ∀ c∈s.clearing++s.cleared,c.1 ≤ s.count
  rows : ∀ c∈s.cleared,∀ k,D.hits c.2 k=true → D.present s.table k → c.1 ≤ s.origin k
  coming : ∀ c∈s.cleared,∀ p∈pending D s,∀ k∈D.makes p.2,D.hits c.2 k=true → c.1 ≤ p.1

variable {p : Nat × S} {c : Nat × C}

theorem mem_stamped {e : Nat × R} (h : p∈stamped D e) : p.1=e.1 ∧ p.2∈D.statements e.2 := by
  obtain ⟨st,hst,rfl⟩ := mem_map.mp h
  exact ⟨rfl,hst⟩

theorem fresh_initial {memory : M} {table : T} : Fresh D (initial memory table) :=
  ⟨forall_mem_nil _,forall_mem_nil _,forall_mem_nil _⟩

variable [DecidableEq K]

/-- What is to be written after an event was to be written before, or is inserted by it. -/
theorem mem_pending_act (h : p∈pending D (act D s e)) : p∈pending D s ∨ p.1=s.count := by
  cases e with
  | insert r =>
    simp only [act,pending] at h
    split at h
    · rw [flatMap_append,← append_assoc] at h
      rcases mem_append.mp h with h | h
      · exact .inl h
      · simp only [flatMap_cons,flatMap_nil,append_nil] at h
        exact .inr (mem_stamped h).1
    · exact .inl h
  | send i =>
    simp only [act] at h
    split at h
    · exact .inl h
    · rename_i x hx
      refine .inl ?_
      have ha : x∈s.announced := mem_of_getElem? hx
      simp only [pending,mem_append,mem_flatMap] at h ⊢
      rcases h with (h | ⟨y,hy,hp⟩) | ⟨y,hy,hp⟩
      · exact .inl (.inl h)
      · split at hy
        · rcases mem_append.mp hy with hy | hy
          · exact .inl (.inr ⟨y,hy,hp⟩)
          · rw [mem_singleton.mp hy] at hp
            exact .inr ⟨x,ha,hp⟩
        · exact .inl (.inr ⟨y,hy,hp⟩)
      · exact .inr ⟨y,mem_of_mem_eraseIdx hy,hp⟩
  | receive =>
    simp only [act] at h
    split at h
    · exact .inl h
    · rename_i x rest hq
      split at h
      · exact .inl h
      · refine .inl ?_
        simpa [pending,hq,append_assoc] using h
  | write now =>
    simp only [act] at h
    split at h
    · exact .inl h
    · rename_i n st rest hr
      refine .inl ?_
      simp only [pending,hr,cons_append]
      exact mem_cons_of_mem _ h
  | clear c => exact .inl h
  | erase i =>
    simp only [act] at h
    split at h
    · exact .inl h
    · exact .inl h

/-- A clear that is done after an event was done before, or is done by it. -/
theorem mem_cleared_act (h : c∈(act D s e).cleared) :
    c∈s.cleared ∨ ∃ i,e=.erase i ∧ s.clearing[i]?=some c := by
  cases e with
  | erase i =>
    simp only [act] at h
    split at h
    · exact .inl h
    · rename_i x hx
      rcases mem_append.mp h with h | h
      · exact .inl h
      · rw [mem_singleton.mp h]
        exact .inr ⟨i,rfl,hx⟩
  | send i =>
    simp only [act] at h
    split at h <;> exact .inl h
  | receive =>
    simp only [act] at h
    split at h
    · exact .inl h
    · split at h <;> exact .inl h
  | write now =>
    simp only [act] at h
    split at h <;> exact .inl h
  | _ => exact .inl h

/-- A row that is there after an event was there before with its origin, or was made of a statement that was
to be executed. -/
theorem present_act (hD : D.Lawful) {k : K} (h : D.present (act D s e).table k) :
    (D.present s.table k ∧ (act D s e).origin k=s.origin k ∧ ∀ i c,e=.erase i → s.clearing[i]?=some c →
      D.hits c.2 k=false) ∨
      ∃ p∈pending D s,k∈D.makes p.2 ∧ (act D s e).origin k=p.1 ∧ ∀ i,e ≠ .erase i := by
  cases e with
  | write now =>
    simp only [act] at h ⊢
    split at h
    · exact .inl ⟨h,rfl,fun _ _ => nofun⟩
    · rename_i n st rest hr
      by_cases hm : k∈D.makes st
      · refine .inr ⟨(n,st),?_,hm,if_pos hm,fun _ => nofun⟩
        simp [pending,hr]
      · exact .inl ⟨(hD.exec h).resolve_left hm,if_neg hm,fun _ _ => nofun⟩
  | erase i =>
    simp only [act] at h ⊢
    split at h
    · rename_i hn
      refine .inl ⟨h,rfl,fun i' c heq hc => ?_⟩
      cases heq
      rw [hn] at hc
      cases hc
    · rename_i x hx
      obtain ⟨hp,hh⟩ := hD.erase h
      refine .inl ⟨hp,rfl,fun i' c heq hc => ?_⟩
      cases heq
      obtain rfl : x=c := Option.some.inj (hx.symm.trans hc)
      exact hh
  | insert r | clear c => exact .inl ⟨h,rfl,fun _ _ => nofun⟩
  | send i =>
    simp only [act] at h ⊢
    split at h <;> exact .inl ⟨h,rfl,fun _ _ => nofun⟩
  | receive =>
    simp only [act] at h ⊢
    split at h
    · exact .inl ⟨h,rfl,fun _ _ => nofun⟩
    · split_ifs at h ⊢ <;> exact .inl ⟨h,rfl,fun _ _ => nofun⟩

theorem begun_act (h : ∀ c∈s.clearing++s.cleared,c.1 ≤ s.count)
    (hc : c∈(act D s e).clearing++(act D s e).cleared) :
    c.1 ≤ s.count := by
  cases e with
  | erase i =>
    simp only [act] at hc
    split at hc
    · exact h c hc
    · rename_i x hx
      refine h c ?_
      simp only [mem_append,mem_singleton] at hc ⊢
      rcases hc with hc | hc | rfl
      · exact .inl (mem_of_mem_eraseIdx hc)
      · exact .inr hc
      · exact .inl (mem_of_getElem? hx)
  | clear c' =>
    simp only [act,append_assoc,mem_append,mem_singleton] at hc
    rcases hc with hc | rfl | hc
    · exact h c (mem_append_left _ hc)
    · exact Nat.le_refl _
    · exact h c (mem_append_right _ hc)
  | insert r => exact h c hc
  | send i =>
    simp only [act] at hc
    split at hc <;> exact h c hc
  | receive =>
    simp only [act] at hc
    split at hc
    · exact h c hc
    · split at hc <;> exact h c hc
  | write now =>
    simp only [act] at hc
    split at hc <;> exact h c hc

theorem fresh_step (hD : D.Lawful) (h : Fresh D s) (hs : Settles D s e) : Fresh D (step D s e) where
  begun := fun _ hc => Nat.le_succ_of_le (begun_act h.begun hc)
  rows := by
    intro c hc k hh hpr
    rcases present_act hD hpr with ⟨hb,ho,hsp⟩ | ⟨p,hp,hm,ho,hot⟩
    · rcases mem_cleared_act hc with hc | ⟨i,rfl,hi⟩
      · exact ho ▸ h.rows c hc k hh hb
      · rw [hsp i c rfl hi] at hh
        cases hh
    · rcases mem_cleared_act hc with hc | ⟨i,rfl,-⟩
      · exact ho ▸ h.coming c hc p hp k hm hh
      · exact absurd rfl (hot i)
  coming := by
    intro c hc p hp k hm hh
    rcases mem_pending_act hp with hb | hn
    · rcases mem_cleared_act hc with hd | ⟨i,rfl,hi⟩
      · exact h.coming c hd p hb k hm hh
      · exact hs c hi p hb k hm hh
    · rw [hn]
      exact begun_act h.begun (mem_append_right _ hc)

theorem fresh_run (hD : D.Lawful) {events : List (Event R C)} (h : Fresh D s) (he : Meets D (Settles D) s events) :
    Fresh D (run D s events) := by
  induction events generalizing s with
  | nil => exact h
  | cons e events ih => exact ih (fresh_step hD h he.1) he.2

end

section
variable {M R S T K C V : Type} {D : Design M R S T K C} {s : State M R S T K C}

/-- What `view` shows of the table once everything that is to be executed has been, each statement the way
`settle` does it. -/
def settled (D : Design M R S T K C) (view : T → V) (settle : S → V → V) (s : State M R S T K C) : V :=
  (pending D s).foldl (fun v p => settle p.2 v) (view s.table)

theorem settled_of_drained (view : T → V) (settle : S → V → V) (h : Drained s) :
    settled D view settle s=view s.table := by
  obtain ⟨ha,hq,hr⟩ := h
  simp [settled,pending,ha,hq,hr]

variable [DecidableEq K]

theorem meets_append {P : State M R S T K C → Event R C → Prop} {events events' : List (Event R C)} :
    Meets D P s (events++events') ↔ Meets D P s events ∧ Meets D P (run D s events) events' := by
  induction events generalizing s with
  | nil => simp [Meets,run]
  | cons e events ih =>
    simp only [cons_append,Meets,ih,and_assoc]
    rfl

def Event.clears : Event R C → Bool
  | .clear _ | .erase _ => true
  | _ => false

theorem clearing_step {e : Event R C} (h : e.clears=false) : (step D s e).clearing=s.clearing := by
  cases e with
  | insert r => rfl
  | clear c | erase i => cases h
  | send i | write now =>
    simp only [step,act]
    split <;> rfl
  | receive =>
    simp only [step,act]
    split
    · rfl
    · split <;> rfl

def inserted (r : R) : List (Event R C) := [.insert r,.send 0]

theorem settled_inserted (view : T → V) (settle : S → V → V) {r : R} (ha : s.announced=[])
    (hr : D.persists r=true → s.queue.length<D.capacity) :
    let s' := run D s (inserted r)
    s'.announced=[] ∧ s'.memory=D.remember r s.memory ∧
      settled D view settle s' =
        if D.persists r then (D.statements r).foldl (fun v st => settle st v) (settled D view settle s) else
          settled D view settle s := by
  cases hp : D.persists r with
  | true =>
    refine ⟨?_,?_,?_⟩ <;>
      simp [run,inserted,step,act,hp,ha,hr hp,settled,pending,stamped,foldl_append,foldl_map]
  | false =>
    refine ⟨?_,?_,?_⟩ <;> simp [run,inserted,step,act,hp,ha,settled,pending]

theorem settled_receive (D : Design M R S T K C) (view : T → V) (settle : S → V → V) (s : State M R S T K C) :
    let s' := step D s .receive
    s'.announced=s.announced ∧ s'.memory=s.memory ∧ settled D view settle s'=settled D view settle s := by
  simp only [step,act]
  split
  · exact ⟨rfl,rfl,rfl⟩
  · rename_i e rest hq
    split
    · exact ⟨rfl,rfl,rfl⟩
    · refine ⟨rfl,rfl,?_⟩
      simp [settled,pending,hq,append_assoc]

theorem settled_write {view : T → V} {settle : S → V → V} {now : Nat}
    (h : ∀ p rest,s.running=p::rest → ∀ t,view (D.exec now p.2 t)=settle p.2 (view t)) :
    let s' := step D s (.write now)
    s'.announced=s.announced ∧ s'.memory=s.memory ∧ settled D view settle s'=settled D view settle s := by
  simp only [step,act]
  split
  · exact ⟨rfl,rfl,rfl⟩
  · rename_i n st rest hr
    refine ⟨rfl,rfl,?_⟩
    simp [settled,pending,hr,h (n,st) rest hr]

end

end RolodexDns.WriteBehind
