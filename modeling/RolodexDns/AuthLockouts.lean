import RolodexDns.StoredRecords
import RolodexDns.TextFields

/-! Guessing the shared secret of the control plane. A source that fails too often is locked out, twice as
long each time. But the window that forgives a source is measured from its last failure, and so from the
beginning of a lockout and not from its end. -/
namespace RolodexDns.AuthLockouts
open DnsRecords StoredRecords TextFields List

/-- Times and durations are in nanoseconds. -/
def seconds (n : Nat) : Nat := n*10^9

def authFailureThreshold : Nat := 5
def authLockout : Nat := seconds 30
def maxAuthLockout : Nat := seconds 900
def authFailureWindow : Nat := seconds 300
def unknownPeer : IpAddr := .v4 0

structure AuthFailures where
  count : Nat
  lastFailure : Nat
  lockedUntil : Option Nat
  lockout : Nat

inductive Status where
  | resourceExhausted (message : Text)
  | unauthenticated (message : Text)

/-- A call that brings a token. The clock is read for the lockout, and again when a failure is noted. -/
structure Attempt where
  peer : Option IpAddr
  token : Text
  checkedAt : Nat
  notedAt : Nat

def Attempt.source (a : Attempt) : IpAddr := a.peer.getD unknownPeer

section
variable (entry : Option AuthFailures) (now : Nat)

/-- What is left of a lockout. One that has been served is cleared, and the entry kept. -/
def throttledFor : Option Nat × Option AuthFailures :=
  match entry.bind (·.lockedUntil) with
  | none => (none,entry)
  | some lockedUntil =>
    if now ≤ lockedUntil then (some (lockedUntil - now),entry) else (none,entry.map ({ · with lockedUntil := none }))

/-- What is known of the source. Failures that are too far apart are no run. -/
def recent : AuthFailures :=
  let entry := entry.getD ⟨0,now,none,authLockout⟩
  if authFailureWindow<now - entry.lastFailure then { entry with count := 0, lockout := authLockout } else entry

/-- The lockout that is reported, and the entry after one more failure. -/
def noteAuthFailure : Option Nat × AuthFailures :=
  let entry := recent entry now
  if authFailureThreshold ≤ entry.count+1 then
    (some entry.lockout,⟨0,now,some (now+entry.lockout),min (entry.lockout*2) maxAuthLockout⟩)
  else (none,{ entry with lastFailure := now, count := entry.count+1 })

/-- The outcome, the lockout that begins with it, and what the table has of the source afterwards. Below its
cap the table has room for every source, and nothing is pruned. -/
def checkAuth (isUnix : Bool) (sharedSecret : Text) (a : Attempt) :
    Except Status Unit × Option Nat × Option AuthFailures :=
  if isUnix || sharedSecret.isEmpty then (.ok (),none,entry)
  else
    let (retryIn,entry) := throttledFor entry a.checkedAt
    match retryIn with
    | some retryIn => (.error (.resourceExhausted ("too many failed authentication attempts; retry in "++
        decimal (max (retryIn / seconds 1) 1)++['s'])),none,entry)
    | none =>
      if a.token=sharedSecret then (.ok (),none,none)
      else
        let (lockout,entry) := noteAuthFailure entry a.notedAt
        (.error (.unauthenticated "invalid auth token"),lockout,entry)

end

/-- The table; the last lockout of a source, as long as neither a success nor a quiet window has made good
for it; and when the source was last heard of, be it by a failure or by the end of a lockout. -/
structure Watch where
  table : IpAddr → Option AuthFailures
  previous : Option Nat
  quietSince : Nat

section
variable (isUnix : Bool) (sharedSecret : Text) (source : IpAddr) (w : Watch) (a : Attempt)

/-- The lockout that the next one has to double. -/
def Watch.outstanding : Option Nat := if authFailureWindow ≤ a.notedAt - w.quietSince then none else w.previous

def Watch.after : Watch :=
  let (status,lockout,entry) := checkAuth (w.table a.source) isUnix sharedSecret a
  let table := Function.update w.table a.source entry
  if a.source=source then
    match status, lockout with
    | .ok _, _ => ⟨table,none,w.quietSince⟩
    | .error (.resourceExhausted _), _ => { w with table := table }
    | .error (.unauthenticated _), none => ⟨table,w.outstanding a,a.notedAt⟩
    | .error (.unauthenticated _), some lockout => ⟨table,some lockout,a.notedAt+lockout⟩
  else { w with table := table }

def watched (attempts : List Attempt) : Watch :=
  attempts.foldl (Watch.after isUnix sharedSecret source) ⟨fun _ => none,none,0⟩

def Escalates : Prop := ∀ before lockout,a.source=source → w.outstanding a=some before →
  (checkAuth (w.table source) isUnix sharedSecret a).2.1=some lockout → lockout=min (before*2) maxAuthLockout

def failureNoted : Bool :=
  match (checkAuth (w.table a.source) isUnix sharedSecret a).1 with
  | .error (.unauthenticated _) => true
  | _ => false

/-- A failure that comes within a window of the end of a lockout comes within a window of its beginning. -/
def Steady : Prop := a.source=source → failureNoted isUnix sharedSecret w a=true → w.outstanding a≠none →
  ∀ entry∈w.table source,a.notedAt - entry.lastFailure ≤ authFailureWindow

end

section
variable {now : Nat} {isUnix : Bool} {sharedSecret : Text} {source : IpAddr} {w : Watch} {a : Attempt}
  {entry : Option AuthFailures}

theorem throttledFor_keeps : (throttledFor entry now).2.map (fun e => (e.lastFailure,e.lockout))=entry.map fun e =>
      (e.lastFailure,e.lockout) := by
  unfold throttledFor
  split
  · rfl
  · split
    · rfl
    · rw [Option.map_map]
      rfl

theorem noteAuthFailure_cases :
    (noteAuthFailure entry now).1=none ∧ (noteAuthFailure entry now).2.lockout=(recent entry now).lockout ∨
    (noteAuthFailure entry now).1=some (recent entry now).lockout ∧
      (noteAuthFailure entry now).2.lockout=min ((recent entry now).lockout*2) maxAuthLockout := by
  unfold noteAuthFailure
  dsimp only
  split
  · exact .inr ⟨rfl,rfl⟩
  · exact .inl ⟨rfl,rfl⟩

/-- The table knows how long the next lockout has to be. -/
def Knows (source : IpAddr) (w : Watch) : Prop :=
  ∀ before,w.previous=some before → ∃ entry∈w.table source,entry.lockout=min (before*2) maxAuthLockout

theorem Knows.after (h : Knows source w) (hs : Steady isUnix sharedSecret source w a) :
    Knows source (w.after isUnix sharedSecret source a) ∧ Escalates isUnix sharedSecret source w a := by
  unfold Watch.after Escalates Knows
  by_cases hso : a.source=source
  · subst hso
    have hk := @throttledFor_keeps a.checkedAt (w.table a.source)
    unfold checkAuth
    unfold Steady failureNoted checkAuth at hs
    generalize throttledFor (w.table a.source) a.checkedAt=throttled at hk hs ⊢
    obtain ⟨retryIn,entry⟩ := throttled
    -- What the table has of a lockout is still there when the failure is noted.
    have hke (before : Nat) (hb : w.previous=some before) : ∃ e old,entry=some e ∧ old∈w.table a.source ∧
        e.lastFailure=old.lastFailure ∧ e.lockout=min (before*2) maxAuthLockout := by
      obtain ⟨old,ho,hl⟩ := h before hb
      rw [Option.mem_def.mp ho,Option.map_some,Option.map_eq_some_iff] at hk
      obtain ⟨e,he,heq⟩ := hk
      exact ⟨e,old,he,ho,congrArg Prod.fst heq,(congrArg Prod.snd heq).trans hl⟩
    dsimp only
    rw [if_pos rfl]
    by_cases hop : (isUnix || sharedSecret.isEmpty)=true
    · rw [if_pos hop]
      exact ⟨nofun,nofun⟩
    · rw [if_neg hop] at hs ⊢
      cases retryIn with
      | some retryIn =>
        refine ⟨fun before hb => ?_,nofun⟩
        obtain ⟨e,-,rfl,-,-,hl⟩ := hke before hb
        exact ⟨e,by simp,hl⟩
      | none =>
        by_cases ht : a.token=sharedSecret
        · rw [if_pos ht]
          exact ⟨nofun,nofun⟩
        · dsimp only at hs
          rw [if_neg ht] at hs ⊢
          have hn (before : Nat) (hb : w.outstanding a=some before) :
              (recent entry a.notedAt).lockout=min (before*2) maxAuthLockout := by
            have hp : w.previous=some before := by
              unfold Watch.outstanding at hb
              split at hb
              · cases hb
              · exact hb
            obtain ⟨e,old,rfl,ho,hla,hl⟩ := hke before hp
            have hw := hs rfl rfl (by rw [hb]; exact Option.some_ne_none _) old ho
            rw [recent,Option.getD_some,if_neg (not_lt.mpr (hla ▸ hw))]
            exact hl
          rcases @noteAuthFailure_cases a.notedAt entry with ⟨hno,hl⟩ | ⟨hsm,hl⟩
          · rw [hno]
            exact ⟨fun before hb => ⟨_,by simp,hl.trans (hn before hb)⟩,nofun⟩
          · rw [hsm]
            refine ⟨?_,?_⟩
            · rintro before ⟨⟩
              exact ⟨_,by simp,hl⟩
            · rintro before _ - hb ⟨⟩
              exact hn before hb
  · dsimp only
    rw [if_neg hso]
    refine ⟨fun before hb => ?_,fun _ _ heq => absurd heq hso⟩
    dsimp only
    rw [Function.update_of_ne (Ne.symm hso)]
    exact h before hb

end

/-- Every lockout doubles the one before it, unless a success or a quiet window lies between them, as long
as no failure comes within a window of the end of a lockout but not of its beginning. -/
theorem lockouts_escalate {isUnix : Bool} {sharedSecret : Text} {source : IpAddr} {attempts : List Attempt}
    (h : ∀ i a,attempts[i]?=some a →
      Steady isUnix sharedSecret source (watched isUnix sharedSecret source (attempts.take i)) a) :
    ∀ i a,attempts[i]?=some a →
      Escalates isUnix sharedSecret source (watched isUnix sharedSecret source (attempts.take i)) a := by
  have hk (i : Nat) : Knows source (watched isUnix sharedSecret source (attempts.take i)) := by
    induction i with
    | zero => exact nofun
    | succ i ih =>
      rw [take_add_one]
      cases ha : attempts[i]? with
      | none =>
        rw [Option.toList_none,append_nil]
        exact ih
      | some a =>
        rw [watched,foldl_append]
        exact (ih.after (h i a ha)).1
  intro i a ha
  exact ((hk i).after (h i a ha)).2

/-- Wrong tokens, five at the beginning of each of these seconds. -/
def guesses (times : List Nat) : List Attempt :=
  times.flatMap fun s => replicate 5 ⟨some (.v4 1),[],seconds s,seconds s⟩

instance (isUnix : Bool) (sharedSecret : Text) (source : IpAddr) (w : Watch) (a : Attempt) :
    Decidable (Steady isUnix sharedSecret source w a) :=
  inferInstanceAs (Decidable (_ → _ → _ → ∀ entry∈w.table source,_))

/-- The second lockout is twice the first. -/
theorem lockouts_escalate_twice : let w := watched false ['s'] (.v4 1) ((guesses [0,31]).take 9)
    ∃ a,(guesses [0,31])[9]?=some a ∧ Escalates false ['s'] (.v4 1) w a ∧ w.outstanding a=some (seconds 30) ∧
      (checkAuth (w.table (.v4 1)) false ['s'] a).2.1=some (seconds 60) := by
  refine ⟨_,rfl,lockouts_escalate (fun i a hi => ?_) 9 _ rfl,by decide +kernel⟩
  have hlt : i<10 := (List.getElem?_eq_some_iff.mp hi).1
  interval_cases i <;> cases hi <;> decide +kernel

/-- The source comes back one second after each lockout has ended. The one that follows the fifth, of eight
minutes, is as short as the first. -/
theorem lockout_forgotten : let w := watched false ['s'] (.v4 1) ((guesses [0,31,92,213,454,935]).take 29)
    ∃ a,(guesses [0,31,92,213,454,935])[29]?=some a ∧ w.outstanding a=some (seconds 480) ∧
      (checkAuth (w.table (.v4 1)) false ['s'] a).2.1=some (seconds 30) := ⟨_,rfl,by decide +kernel⟩

end RolodexDns.AuthLockouts
