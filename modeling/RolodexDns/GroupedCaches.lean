import Mathlib.Data.List.Induction

/-! A cache that holds the rows of a table by key. Adding a row keeps the cache what it would be after
loading the table anew; deleting rows and evicting keys does so exactly if no evicted key has a row left. -/
namespace RolodexDns.GroupedCaches
open List

variable {K R V : Type} [DecidableEq K] [BEq K] [LawfulBEq K] (key : R → K) (val : R → V) (rows : List R)

def push : List (K × List V) → K → V → List (K × List V)
  | [], k, v => [(k,[v])]
  | (k',vs)::rest, k, v => if k'=k then (k',vs++[v])::rest else (k',vs)::push rest k v

def retain (keep : K → Bool) (cache : List (K × List V)) : List (K × List V) := cache.filter fun e => keep e.1

def load : List (K × List V) :=
  rows.foldl (fun cache r => push cache (key r) (val r)) []

def group (k : K) : List V := (rows.filter fun r => key r=k).map val

/-- Each key has the entry that its rows make up, and none if there are no rows. -/
def Mirrors (cache : List (K × List V)) (rows : List R) : Prop :=
  ∀ k,cache.lookup k=if group key val rows k=[] then none else some (group key val rows k)

section
variable {cache : List (K × List V)} {k : K} {v : V}

theorem lookup_cons (k₀ : K) (vs : List V) : ((k₀,vs)::cache).lookup k=if k=k₀ then some vs else cache.lookup k := by
  rw [List.lookup_cons]
  by_cases hk : k=k₀
  · rw [if_pos hk,beq_iff_eq.mpr hk]
  · rw [if_neg hk,beq_eq_false_iff_ne.mpr hk]

theorem lookup_push (k' : K) : (push cache k v).lookup k'=if k'=k then some ((cache.lookup k).getD []++[v]) else
      cache.lookup k' := by
  induction cache with
  | nil => simp [push,lookup_cons]
  | cons e rest ih =>
    obtain ⟨k₀,vs⟩ := e
    unfold push
    by_cases hk : k₀=k
    · subst hk
      simp only [if_true,lookup_cons,Option.getD_some]
      split <;> rfl
    · simp only [if_neg hk,if_neg (Ne.symm hk),lookup_cons,ih]
      by_cases hk' : k'=k₀
      · rw [if_pos hk',if_pos hk',if_neg (hk' ▸ hk)]
      · rw [if_neg hk',if_neg hk']

theorem lookup_retain (keep : K → Bool) (k : K) :
    (retain keep cache).lookup k=if keep k then cache.lookup k else none := by
  induction cache with
  | nil => simp [retain]
  | cons e rest ih =>
    obtain ⟨k₀,vs⟩ := e
    unfold retain at ih ⊢
    rw [filter_cons,lookup_cons]
    by_cases hk : k=k₀
    · subst hk
      cases hke : keep k <;> simp [hke,ih]
    · cases keep k₀ <;> simp [hk,ih,lookup_cons]

end

section
variable {key : R → K} {val : R → V} {cache : List (K × List V)} {rows : List R}

omit [BEq K] [LawfulBEq K] in
theorem group_append (rows' : List R) (k : K) :
    group key val (rows++rows') k=group key val rows k++group key val rows' k := by
  simp [group]

omit [BEq K] [LawfulBEq K] in
theorem mem_group_of_mem {r : R} (hr : r∈rows) : group key val rows (key r)≠[] := by
  have hm : r∈rows.filter fun r' => key r'=key r := mem_filter.mpr ⟨hr,by simp⟩
  simpa [group] using ne_nil_of_mem hm

omit [BEq K] [LawfulBEq K] in
theorem group_eq_nil_iff {k : K} : group key val rows k=[] ↔ ∀ r∈rows,key r≠k := by
  simp [group]

omit [LawfulBEq K] in
theorem getD_lookup (h : Mirrors key val cache rows) (k : K) : (cache.lookup k).getD []=group key val rows k := by
  rw [h k]
  split_ifs with hn
  · exact hn.symm
  · rfl

omit [LawfulBEq K] in
theorem mirrors_nil : Mirrors key val [] [] := fun _ => rfl

theorem Mirrors.push (h : Mirrors key val cache rows) (r : R) :
    Mirrors key val (push cache (key r) (val r)) (rows++[r]) := by
  intro k
  rw [lookup_push,getD_lookup h,group_append]
  by_cases hk : k=key r
  · subst hk
    simp [group]
  · have hn : group key val [r] k=[] := group_eq_nil_iff.mpr fun r' hr' => by
      rw [mem_singleton.mp hr']
      exact Ne.symm hk
    rw [if_neg hk,hn,append_nil]
    exact h k

theorem mirrors_load (rows : List R) : Mirrors key val (load key val rows) rows := by
  induction rows using reverseRecOn with
  | nil => exact mirrors_nil
  | append_singleton rows r ih =>
    unfold load at ih ⊢
    rw [foldl_append]
    exact ih.push r

theorem mirrors_iff_load : Mirrors key val cache rows ↔ ∀ k,cache.lookup k=(load key val rows).lookup k :=
  forall_congr' fun k => by rw [mirrors_load rows k]

variable {drop : R → Bool} {evict : K → Bool}

/-- Where the keys of all deleted rows are evicted, the cache stays right exactly if no other row has one of
the evicted keys. -/
theorem mirrors_retain_iff (h : Mirrors key val cache rows) (hdr : ∀ r∈rows,drop r=true → evict (key r)=true) :
    Mirrors key val (retain (fun k => !evict k) cache) (rows.filter fun r => !drop r) ↔
      ∀ r∈rows,evict (key r)=true → drop r=true := by
  constructor
  · intro ha r hr he
    by_contra hke
    have hm : r∈rows.filter fun r => !drop r := mem_filter.mpr ⟨hr,by simpa using hke⟩
    have hl := ha (key r)
    rw [lookup_retain,he,if_neg (mem_group_of_mem hm)] at hl
    cases hl
  · intro hs k
    rw [lookup_retain]
    cases hk : evict k with
    | true =>
      have hn : group key val (rows.filter fun r => !drop r) k=[] := by
        refine group_eq_nil_iff.mpr fun r hr hky => ?_
        obtain ⟨hr,hke⟩ := mem_filter.mp hr
        rw [hs r hr (hky ▸ hk)] at hke
        cases hke
      rw [hn]
      rfl
    | false =>
      have hsa : group key val (rows.filter fun r => !drop r) k=group key val rows k := by
        unfold group
        rw [filter_filter]
        refine congrArg _ (filter_congr fun r hr => ?_)
        by_cases hky : key r=k
        · have hke : drop r=false := by
            by_contra hd
            rw [← hky,hdr r hr (by simpa using hd)] at hk
            cases hk
          simp [hke]
        · simp [hky]
      rw [hsa]
      exact h k

end

end RolodexDns.GroupedCaches
