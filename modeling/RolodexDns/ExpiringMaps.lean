import Mathlib.Tactic.Common

/-! Bounded maps whose entries expire, as lists of keyed entries. A lookup drops the entry it finds
expired, and an insertion into a full map first makes room. -/
namespace RolodexDns.ExpiringMaps
open List

structure Timed (β : Type) where
  value : β
  expiresAt : Nat

abbrev ExpiringMap (κ β : Type) := List (κ × Timed β)

namespace ExpiringMap
variable {κ β : Type}

def All (P : κ → Timed β → Prop) (m : ExpiringMap κ β) : Prop := ∀ e∈m,P e.1 e.2

theorem All.subset {P : κ → Timed β → Prop} {m m' : ExpiringMap κ β} (h : All P m) (hs : m'⊆m) :
    All P m' :=
  fun e he => h e (hs he)

/-- Makes room in a full map: expired entries go first, then as many others as it takes. -/
def reapIfFull (m : ExpiringMap κ β) (limit now : Nat) : ExpiringMap κ β :=
  if m.length<limit then m
  else
    let live := m.filter fun e => now<e.2.expiresAt
    live.drop (live.length+1 - limit)

theorem reapIfFull_subset {m : ExpiringMap κ β} {limit now : Nat} : m.reapIfFull limit now⊆m := by
  unfold reapIfFull
  split
  · exact List.Subset.refl m
  · exact List.Subset.trans (drop_subset _ _) filter_sublist.subset

variable [DecidableEq κ]

def erase (m : ExpiringMap κ β) (k : κ) : ExpiringMap κ β := m.filter fun e => e.1≠k

/-- The live entry of a key, with the map left after dropping an expired one. -/
def get (m : ExpiringMap κ β) (now : Nat) (k : κ) : Option (Timed β) × ExpiringMap κ β :=
  match m.find? fun e => e.1=k with
  | none => (none,m)
  | some e => if e.2.expiresAt ≤ now then (none,m.erase k) else (some e.2,m)

def put (m : ExpiringMap κ β) (k : κ) (e : Timed β) : ExpiringMap κ β := (k,e)::m.erase k

def insert (m : ExpiringMap κ β) (limit now : Nat) (k : κ) (e : Timed β) : ExpiringMap κ β :=
  (m.reapIfFull limit now).put k e

variable {P : κ → Timed β → Prop} {m : ExpiringMap κ β} {now limit : Nat} {k : κ} {e : Timed β}
  {x : κ × Timed β} {k' : κ}

theorem erase_subset : m.erase k⊆m := filter_sublist.subset

theorem All.insert (h : All P m) (he : P k e) : All P (m.insert limit now k e) := by
  intro x hx
  rcases mem_cons.mp hx with rfl | hx
  · exact he
  · exact h x (reapIfFull_subset (erase_subset hx))

theorem mem_put (h : x∈m.put k e) : x=(k,e) ∨ x∈m := by
  rcases mem_cons.mp h with h | h
  · exact .inl h
  · exact .inr (erase_subset h)

theorem mem_insert (h : x∈m.insert limit now k e) : x=(k,e) ∨ x∈m := by
  rcases mem_put h with h | h
  · exact .inl h
  · exact .inr (reapIfFull_subset h)

theorem get_subset : (m.get now k).2⊆m := by
  unfold get
  split
  · exact List.Subset.refl m
  · split
    · exact erase_subset
    · exact List.Subset.refl m

theorem get_some (h : (m.get now k).1=some e) : (k,e)∈m ∧ now<e.expiresAt := by
  unfold get at h
  split at h
  · simp at h
  · rename_i x hf
    split at h
    · simp at h
    · rename_i hl
      have hk : x.1=k := by simpa using find?_some hf
      have hv : x.2=e := by simpa using h
      have hm : x∈m := mem_of_find?_eq_some hf
      rw [← hk,← hv]
      exact ⟨hm,Nat.lt_of_not_le hl⟩

def entryOf (m : ExpiringMap κ β) (k : κ) : Option (Timed β) := (m.find? fun e => e.1=k).map Prod.snd

theorem entryOf_put_self : (m.put k e).entryOf k=some e := by simp [put,entryOf]

theorem entryOf_erase_of_ne (h : k'≠k) : (m.erase k).entryOf k'=m.entryOf k' := by
  unfold entryOf erase
  rw [find?_filter]
  congr 2
  funext x
  by_cases hx : x.1=k' <;> simp [hx,h]

theorem entryOf_put_of_ne (h : k'≠k) : (m.put k e).entryOf k'=m.entryOf k' := by
  have hc : (m.put k e).entryOf k'=(m.erase k).entryOf k' := by simp [put,entryOf,Ne.symm h]
  rw [hc,entryOf_erase_of_ne h]

theorem get_fst : (m.get now k).1=(m.entryOf k).filter fun e => now<e.expiresAt := by
  unfold get entryOf
  cases m.find? (fun e => e.1=k) with
  | none => rfl
  | some x =>
    by_cases hd : x.2.expiresAt ≤ now
    · simp [hd,Option.filter_some]
    · simp [hd,Option.filter_some,Nat.lt_of_not_le hd]

theorem entryOf_erase_self : (m.erase k).entryOf k=none := by
  unfold entryOf erase
  rw [Option.map_eq_none_iff,find?_eq_none]
  intro x hx
  simpa using (mem_filter.mp hx).2

theorem entryOf_get (h : k'=k → ∀ e∈m.entryOf k,now<e.expiresAt) :
    (m.get now k).2.entryOf k'=m.entryOf k' := by
  unfold get
  cases hf : m.find? (fun e => e.1=k) with
  | none => rfl
  | some x =>
    dsimp only
    split_ifs with hd
    · refine entryOf_erase_of_ne fun heq => ?_
      have hm : x.2∈m.entryOf k := by simp [entryOf,hf]
      exact absurd (h heq x.2 hm) (Nat.not_lt.mpr hd)
    · rfl

theorem entryOf_get_self : (m.get now k).2.entryOf k=(m.entryOf k).filter fun e => now<e.expiresAt := by
  unfold get
  cases hf : m.find? (fun e => e.1=k) with
  | none => simp [entryOf,hf]
  | some x =>
    have he : m.entryOf k=some x.2 := by simp [entryOf,hf]
    dsimp only
    split
    · rename_i hd
      rw [entryOf_erase_self,he,Option.filter_some_neg (by simpa using hd)]
    · rename_i hl
      rw [he,Option.filter_some_pos (by simpa using hl)]

theorem entryOf_filter (keep : κ → Bool) :
    entryOf (m.filter fun e => keep e.1) k=if keep k then m.entryOf k else none := by
  unfold entryOf
  rw [find?_filter]
  split_ifs with hk
  · congr 2
    funext x
    by_cases hx : x.1=k <;> simp [hx,hk]
  · rw [Option.map_eq_none_iff,find?_eq_none]
    intro x _
    by_cases hx : x.1=k <;> simp [hx,hk]

end ExpiringMap

end RolodexDns.ExpiringMaps
