import Mathlib.Logic.Relation
import RolodexDns.HistoryContracts

/-! Requests that run side by side, with a log of what each of them did and after what. A contract that looks back on
what a request has done by itself holds of the log, however the requests interleave. -/
namespace RolodexDns.TracedSessions
open ProgramTrees HistoryContracts List

variable {L σ Op : Type} {Res : Op → Type} {α : Type}

/-- How operations act on the state, how it changes by itself, the program of each request, and which may be taken up
beside those that are running. -/
structure System (L σ Op : Type) (Res : Op → Type) (α : Type) where
  acts : σ → (o : Op) → Res o → σ → Prop
  drifts : σ → σ → Prop
  program : L → Prog Op Res α
  admits : List L → L → Prop

/-- An operation as it is logged: the request, the length of the log when it was taken up, what it had done by then,
and the operation with its result. -/
structure Entry (L Op : Type) (Res : Op → Type) where
  id : Nat
  label : L
  born : Nat
  past : List ((o : Op) × Res o)
  event : (o : Op) × Res o

structure Task (L Op : Type) (Res : Op → Type) (α : Type) where
  id : Nat
  label : L
  born : Nat
  past : List ((o : Op) × Res o)
  rest : Prog Op Res α

namespace Task

variable (t : Task L Op Res α) (o : Op) (r : Res o)

def entry : Entry L Op Res := ⟨t.id,t.label,t.born,t.past,⟨o,r⟩⟩

def resume (rest : Prog Op Res α) : Task L Op Res α :=
  { t with past := t.past++[⟨o,r⟩], rest := rest }

end Task

structure Session (L σ Op : Type) (Res : Op → Type) (α : Type) where
  state : σ
  tasks : List (Task L Op Res α)
  log : List (Entry L Op Res)
  calls : Nat

def Session.initial (s : σ) : Session L σ Op Res α := ⟨s,[],[],0⟩

section
variable (S : System L σ Op Res α) (allowed : Session L σ Op Res α → Entry L Op Res → Prop)

/-- One step: a request is taken up, performs its next operation, which has to be allowed, ends or is given up, or the
state changes by itself. -/
inductive Advance : Session L σ Op Res α → Session L σ Op Res α → Prop where
  | call (s tasks log calls) {l : L} (h : S.admits (tasks.map Task.label) l) :
    Advance ⟨s,tasks,log,calls⟩ ⟨s,⟨calls,l,log.length,[],S.program l⟩::tasks,log,calls+1⟩
  | act {s s' : σ} (before after log calls) (t : Task L Op Res α) {o : Op} {next : Res o → Prog Op Res α} {r : Res o}
      (hrest : t.rest=.op o next) (hacts : S.acts s o r s') (hallowed : allowed ⟨s,before++t::after,log,calls⟩
        (t.entry o r)) :
    Advance ⟨s,before++t::after,log,calls⟩ ⟨s',before++t.resume o r (next r)::after,log++[t.entry o r],calls⟩
  | leave (s before after log calls) (t : Task L Op Res α) :
    Advance ⟨s,before++t::after,log,calls⟩ ⟨s,before++after,log,calls⟩
  | drift {s s' : σ} (tasks log calls) (h : S.drifts s s') : Advance ⟨s,tasks,log,calls⟩ ⟨s',tasks,log,calls⟩

abbrev Course : Session L σ Op Res α → Session L σ Op Res α → Prop := Relation.ReflTransGen (Advance S allowed)

end

def ownEvents (log : List (Entry L Op Res)) (id : Nat) : List ((o : Op) × Res o) :=
  (log.filter fun e => e.id=id).map Entry.event

section
variable {log : List (Entry L Op Res)} {e : Entry L Op Res} {id : Nat}

theorem ownEvents_append (first rest : List (Entry L Op Res)) :
    ownEvents (first++rest) id=ownEvents first id++ownEvents rest id := by
  rw [ownEvents,filter_append,map_append]
  rfl

theorem ownEvents_concat_self : ownEvents (log++[e]) e.id=ownEvents log e.id++[e.event] := by
  simp [ownEvents]

theorem ownEvents_concat_of_ne (h : e.id≠id) : ownEvents (log++[e]) id=ownEvents log id := by
  simp [ownEvents,h]

theorem ownEvents_eq_nil (h : ∀ e∈log,e.id≠id) : ownEvents log id=[] := by
  simp only [ownEvents,map_eq_nil_iff,filter_eq_nil_iff]
  exact fun e he => by simpa using h e he

theorem mem_ownEvents {x : (o : Op) × Res o} (h : x∈ownEvents log id) : ∃ e∈log,e.id=id ∧ e.event=x := by
  obtain ⟨e,he,rfl⟩ := mem_map.mp h
  obtain ⟨hm,hid⟩ := mem_filter.mp he
  exact ⟨e,hm,of_decide_eq_true hid,rfl⟩

end

/-- What a request may do after what it has done. -/
def lookingBack (allows : List ((o : Op) × Res o) → Op → Prop) : Discipline Unit Op Res :=
  ⟨allows,fun _ _ => True,fun _ _ => True⟩

theorem keeps_and {allows allows' : List ((o : Op) × Res o) → Op → Prop} {past : List ((o : Op) × Res o)}
    {p : Prog Op Res α}
    {Q Q' : List ((o : Op) × Res o) → α → Prop} (h : Keeps (lookingBack allows) past p Q)
    (h' : Keeps (lookingBack allows') past p Q') :
    Keeps (lookingBack fun past o => allows past o ∧ allows' past o) past p fun now a => Q now a ∧ Q' now a := by
  induction p generalizing past with
  | pure a => exact ⟨h,h'⟩
  | op o next ih => exact ⟨⟨h.1,h'.1⟩,fun r hr => ih r (h.2 r hr) (h'.2 r hr)⟩

/-- The log tells of every request what it did, in order, and every request kept to its contract and does so
further on. -/
structure Recorded (allows : L → List ((o : Op) × Res o) → Op → Prop) (P : Session L σ Op Res α) : Prop where
  taken : ∀ t∈P.tasks,t.id<P.calls
  takenLog : ∀ e∈P.log,e.id<P.calls
  distinct : (P.tasks.map Task.id).Nodup
  own : ∀ t∈P.tasks,ownEvents P.log t.id=t.past
  labels : ∀ t∈P.tasks,∀ e∈P.log,e.id=t.id → e.label=t.label
  keeps : ∀ t∈P.tasks,Keeps (lookingBack (allows t.label)) t.past t.rest fun _ _ => True
  entries : ∀ before e after,P.log=before++e::after → ownEvents before e.id=e.past ∧
    (∀ x∈before,x.id=e.id → x.label=e.label) ∧ allows e.label e.past e.event.1

section
variable {S : System L σ Op Res α} {allowed : Session L σ Op Res α → Entry L Op Res → Prop}
  {allows : L → List ((o : Op) × Res o) → Op → Prop} {P P' : Session L σ Op Res α} {calls : Nat}
  {log : List (Entry L Op Res)} {s : σ}
  {t : Task L Op Res α}

theorem recorded_initial (s : σ) : Recorded allows (Session.initial s : Session L σ Op Res α) where
  taken := nofun
  takenLog := nofun
  distinct := nodup_nil
  own := nofun
  labels := nofun
  keeps := nofun
  entries before e after h := absurd h (by simp [Session.initial])

theorem Recorded.call {tasks : List (Task L Op Res α)} {l : L}
    (h : Recorded allows ⟨s,tasks,log,calls⟩) (hp : Keeps (lookingBack (allows l)) [] (S.program l) fun _ _ => True) :
    Recorded allows ⟨s,⟨calls,l,log.length,[],S.program l⟩::tasks,log,calls+1⟩ where
  taken := forall_mem_cons.mpr ⟨Nat.lt_succ_self calls,fun t ht => Nat.lt_succ_of_lt (h.taken t ht)⟩
  takenLog e he := Nat.lt_succ_of_lt (h.takenLog e he)
  distinct := by
    refine nodup_cons.mpr ⟨fun hm => ?_,h.distinct⟩
    obtain ⟨t,ht,hid⟩ := mem_map.mp hm
    exact absurd hid (Nat.ne_of_lt (h.taken t ht))
  own := forall_mem_cons.mpr ⟨ownEvents_eq_nil fun e he => Nat.ne_of_lt (h.takenLog e he),h.own⟩
  labels := forall_mem_cons.mpr ⟨fun e he hid => absurd hid (Nat.ne_of_lt (h.takenLog e he)),h.labels⟩
  keeps := forall_mem_cons.mpr ⟨hp,h.keeps⟩
  entries := h.entries

variable {before after : List (Task L Op Res α)}

variable (h : Recorded allows ⟨s,before++t::after,log,calls⟩)
include h

theorem Recorded.mem_resumed {t' : Task L Op Res α} {o : Op} {r : Res o} {rest : Prog Op Res α}
    (ht' : t'∈before++t.resume o r rest::after) : t'=t.resume o r rest ∨ (t'∈before++t::after ∧ t.id≠t'.id) := by
  have hd := h.distinct
  simp only [map_append,map_cons,nodup_append,nodup_cons,mem_map,mem_cons] at hd
  obtain ⟨-,⟨ha,-⟩,hb⟩ := hd
  rcases mem_append.mp ht' with ht' | ht'
  · exact .inr ⟨by simp [ht'],fun heq => hb t'.id ⟨t',ht',rfl⟩ t.id (.inl rfl) heq.symm⟩
  · rcases mem_cons.mp ht' with rfl | ht'
    · exact .inl rfl
    · exact .inr ⟨by simp [ht'],fun heq => ha ⟨t',ht',heq.symm⟩⟩

theorem Recorded.act {s' : σ} {o : Op} {next : Res o → Prog Op Res α} {r : Res o}
    (hrest : t.rest=.op o next) :
    Recorded allows ⟨s',before++t.resume o r (next r)::after,log++[t.entry o r],calls⟩ := by
  have hs : t∈before++t::after := by simp
  have hk := h.keeps t hs
  rw [hrest] at hk
  refine ⟨fun t' ht' => ?_,fun e he => ?_,by simpa [Task.resume] using h.distinct,fun t' ht' => ?_,
    fun t' ht' e he hid => ?_,
    fun t' ht' => ?_,fun first e rest hsp => ?_⟩
  · rcases h.mem_resumed ht' with rfl | ⟨ht',-⟩
    · exact h.taken t hs
    · exact h.taken t' ht'
  · rcases mem_append.mp he with he | he
    · exact h.takenLog e he
    · rw [mem_singleton.mp he]
      exact h.taken t hs
  · rcases h.mem_resumed ht' with rfl | ⟨ht',hid⟩
    · refine ownEvents_concat_self.trans ?_
      rw [show ownEvents log (t.entry o r).id=t.past from h.own t hs]
      rfl
    · exact (ownEvents_concat_of_ne hid).trans (h.own t' ht')
  · rcases mem_append.mp he with he | he
    · rcases h.mem_resumed ht' with rfl | ⟨ht',-⟩
      · exact h.labels t hs e he hid
      · exact h.labels t' ht' e he hid
    · rw [mem_singleton.mp he] at hid ⊢
      rcases h.mem_resumed ht' with rfl | ⟨-,ho⟩
      · rfl
      · exact absurd hid ho
  · rcases h.mem_resumed ht' with rfl | ⟨ht',-⟩
    · exact hk.2 r trivial
    · exact h.keeps t' ht'
  · rcases eq_nil_or_concat rest with rfl | ⟨rest',e',rfl⟩
    · obtain ⟨rfl,heq⟩ := append_inj' hsp rfl
      obtain ⟨rfl,-⟩ := cons.inj heq
      exact ⟨h.own t hs,fun x hx hid => h.labels t hs x hx hid,hk.1⟩
    · rw [concat_eq_append,← cons_append,← append_assoc] at hsp
      exact h.entries first e rest' (append_inj' hsp rfl).1

theorem Recorded.leave
    : Recorded allows ⟨s,before++after,log,calls⟩ := by
  have hs : List.Sublist (before++after) (before++t::after) := (sublist_cons_self _ _).append_left _
  exact ⟨fun t' ht' => h.taken t' (hs.subset ht'),h.takenLog,h.distinct.sublist (hs.map _),fun t' ht' =>
    h.own t' (hs.subset ht'),
    fun t' ht' => h.labels t' (hs.subset ht'),fun t' ht' => h.keeps t' (hs.subset ht'),h.entries⟩

omit h in
theorem Advance.recorded (hp : ∀ l,Keeps (lookingBack (allows l)) [] (S.program l) fun _ _ => True)
    (hs : Advance S allowed P P') (h : Recorded allows P) : Recorded allows P' := by
  cases hs with
  | call s tasks log calls _ => exact h.call (hp _)
  | act before after log calls t hrest _ _ => exact h.act hrest
  | leave s before after log calls t => exact h.leave
  | drift tasks log calls _ => exact ⟨h.taken,h.takenLog,h.distinct,h.own,h.labels,h.keeps,h.entries⟩

omit h in
/-- What holds at first and is kept by every step of sessions that are recorded holds throughout. -/
theorem Course.holds (Inv : Session L σ Op Res α → Prop)
    (hp : ∀ l,Keeps (lookingBack (allows l)) [] (S.program l) fun _ _ => True) (hi : Inv (.initial s))
    (hs : ∀ P P',Recorded allows P → Inv P → Advance S allowed P P' → Inv P')
    (hc : Course S allowed (.initial s) P) : Recorded allows P ∧ Inv P := by
  induction hc with
  | refl => exact ⟨recorded_initial s,hi⟩
  | tail _ ha ih => exact ⟨ha.recorded hp ih.1,hs _ _ ih.1 ih.2 ha⟩

end

section
variable (answer : L → σ → (o : Op) → Res o × σ) (program : L → Prog Op Res α) (accepts : List L → L → Bool)
  (check : Session L σ Op Res α → Entry L Op Res → Bool)

/-- What happens next: a request comes in, or one of those that are running moves on or ends. -/
inductive Turn (L : Type) where
  | call (l : L)
  | step (i : Nat)

/-- The session after the given turns, if all of them pass the check. -/
def play (P : Session L σ Op Res α) : List (Turn L) → Option (Session L σ Op Res α)
  | [] => some P
  | .call l::turns =>
    if accepts (P.tasks.map Task.label) l then
      play ⟨P.state,⟨P.calls,l,P.log.length,[],program l⟩::P.tasks,P.log,P.calls+1⟩ turns
    else none
  | .step i::turns =>
    match P.tasks.drop i with
    | [] => none
    | t::after =>
      match t.rest with
      | .pure _ => play ⟨P.state,P.tasks.take i++after,P.log,P.calls⟩ turns
      | .op o next =>
        let (r,s) := answer t.label P.state o
        if check P (t.entry o r) then
          play ⟨s,P.tasks.take i++t.resume o r (next r)::after,P.log++[t.entry o r],P.calls⟩ turns
        else none

variable {answer program accepts check} {S : System L σ Op Res α}
  {allowed : Session L σ Op Res α → Entry L Op Res → Prop}

theorem course_play (hp : S.program=program) (hacts : ∀ l s o,S.acts s o (answer l s o).1 (answer l s o).2)
    (had : ∀ running l,accepts running l=true → S.admits running l) (hc : ∀ P e,check P e=true → allowed P e)
    {P P' : Session L σ Op Res α} {turns : List (Turn L)} (h : play answer program accepts check P turns=some P') :
    Course S allowed P P' := by
  subst hp
  induction turns generalizing P with
  | nil =>
    cases h
    exact .refl
  | cons turn turns ih =>
    cases turn with
    | call l =>
      rw [play] at h
      split at h
      · rename_i ha
        exact .head (.call P.state P.tasks P.log P.calls (had _ l ha)) (ih h)
      · cases h
    | step i =>
      have ht := take_append_drop i P.tasks
      rw [play] at h
      split at h
      · cases h
      · rename_i t after hd
        rw [hd] at ht
        split at h
        · have hs : Advance S allowed ⟨P.state,P.tasks.take i++t::after,P.log,P.calls⟩
              ⟨P.state,P.tasks.take i++after,P.log,P.calls⟩ := .leave P.state (P.tasks.take i) after P.log P.calls t
          rw [ht] at hs
          exact .head hs (ih h)
        · rename_i o next hrest
          dsimp only at h
          split at h
          · rename_i hpa
            have hallowed := hc _ _ hpa
            rw [show P=⟨P.state,P.tasks.take i++t::after,P.log,P.calls⟩ from by rw [ht]] at hallowed
            have hs := Advance.act (P.tasks.take i) after P.log P.calls t hrest (hacts t.label P.state o) hallowed
            rw [ht] at hs
            exact .head hs (ih h)
          · cases h

end

end RolodexDns.TracedSessions
