import Mathlib.Data.List.Lex
import Mathlib.Order.Interval.Set.OrdConnected

/-! Intervals of a linear order read as a ring, and the subtrees of a lexicographic
order. A link of a ring names an element and its successor; whatever lies strictly
between the two is absent, the gap that wraps past the largest element included. -/
namespace RolodexDns.CyclicIntervals
open List

variable {α : Type*}

section
variable [LinearOrder α] {o x n : α}

/-- Strictly after `o` and before `n` on the ring. For `n ≤ o` the gap wraps around. -/
def Between (o x n : α) : Prop := if o<n then o<x ∧ x<n else o<x ∨ x<n

instance (o x n : α) : Decidable (Between o x n) := by
  unfold Between
  exact inferInstance

theorem between_iff_of_lt (h : o<n) : Between o x n ↔ o<x ∧ x<n := by
  rw [Between,if_pos h]

theorem between_iff_of_le (h : n ≤ o) : Between o x n ↔ o<x ∨ x<n := by
  rw [Between,if_neg (not_lt.mpr h)]

theorem not_between_left (o n : α) : ¬ Between o o n := by
  unfold Between
  split <;> simp_all

/-- Gaps only depend on how their three points compare. -/
theorem between_congr {β : Type*} [LinearOrder β] {o x n : α} {o' x' n' : β} (hon : o<n ↔ o'<n')
    (hox : o<x ↔ o'<x') (hxn : x<n ↔ x'<n') : Between o x n ↔ Between o' x' n' := by
  unfold Between
  by_cases h : o<n
  · rw [if_pos h,if_pos (hon.mp h),hox,hxn]
  · rw [if_neg h,if_neg (hon.not.mp h),hox,hxn]

/-- A gap whose two ends are outside a convex set contains all of the set or none of it. -/
theorem Between.of_ordConnected {s : Set α} (hs : s.OrdConnected) {o x y n : α}
    (hx : x∈s) (hy : y∈s) (ho : o∉s) (hn : n∉s) (h : Between o x n) : Between o y n := by
  have hoy : o<x → o<y := fun hox => lt_of_not_ge fun hyo => ho (hs.out hy hx ⟨hyo,hox.le⟩)
  have hyn : x<n → y<n := fun hxn => lt_of_not_ge fun hny => hn (hs.out hx hy ⟨hxn.le,hny⟩)
  unfold Between at h ⊢
  split_ifs at h with hon
  · rw [if_pos hon]
    exact ⟨hoy h.1,hyn h.2⟩
  · rw [if_neg hon]
    exact h.imp hoy hyn

/-- `n` follows `o` on the ring of the elements of `s`. -/
structure Link (s : Set α) (o n : α) : Prop where
  left : o∈s
  right : n∈s
  gap : ∀ x∈s,¬ Between o x n

variable {s : Set α} {o n x d : α}

/-- Every element of the ring at or before a covered point is at or before the link's left end. -/
theorem Link.le_left_of_between (h : Link s o n) (hx : Between o x n) (hd : d∈s) (hdx : d ≤ x) :
    d ≤ o ∧ o<x := by
  have hg := h.gap d hd
  unfold Between at hx hg
  split_ifs at hx with hon
  · rw [if_pos hon] at hg
    exact ⟨le_of_not_gt fun hod => hg ⟨hod,hdx.trans_lt hx.2⟩,hx.1⟩
  · rw [if_neg hon] at hg
    push Not at hg
    exact ⟨hg.1,hx.resolve_right fun hxn => absurd (hdx.trans_lt hxn) (not_lt.mpr hg.2)⟩

theorem Link.left_unique {o' : α} (h : Link s o n) (h' : Link s o' n) : o=o' := by
  have hg := h.gap o' h'.left
  have hg' := h'.gap o h.left
  unfold Between at hg hg'
  rcases lt_trichotomy o o' with hlt | heq | hlt
  · split_ifs at hg with hon
    · have hno' : n ≤ o' := le_of_not_gt fun hc => hg ⟨hlt,hc⟩
      rw [if_neg (not_lt.mpr hno')] at hg'
      exact absurd (Or.inr hon) hg'
    · exact absurd (Or.inl hlt) hg
  · exact heq
  · split_ifs at hg' with hon
    · have hno : n ≤ o := le_of_not_gt fun hc => hg' ⟨hlt,hc⟩
      rw [if_neg (not_lt.mpr hno)] at hg
      exact absurd (Or.inr hon) hg
    · exact absurd (Or.inl hlt) hg'

end

section

def subtree (p : List α) : Set (List α) := {x | p <+: x}

variable [LinearOrder α]

private theorem isPrefix_of_between {p x y z : List α} (hx : p <+: x) (hz : p <+: z)
    (hxy : ¬ y<x) (hyz : ¬ z<y) : p <+: y := by
  induction p generalizing x y z with
  | nil => exact nil_prefix
  | cons a p ih =>
    obtain ⟨x',rfl⟩ := hx
    obtain ⟨z',rfl⟩ := hz
    cases y with
    | nil => exact absurd (nil_lt_cons a (p++x')) hxy
    | cons b y =>
      simp only [cons_append,cons_lt_cons_iff,not_or,not_and,not_lt] at hxy hyz
      obtain rfl : a=b := le_antisymm hxy.1 hyz.1
      exact cons_prefix_cons.mpr ⟨rfl,ih (prefix_append p x') (prefix_append p z')
        (not_lt.mpr (hxy.2 rfl)) (not_lt.mpr (hyz.2 rfl))⟩

theorem le_of_isPrefix {p x : List α} (h : p <+: x) : p ≤ x := not_lt.mp (List.IsPrefix.le h)

/-- In the lexicographic order the extensions of a list are contiguous. -/
theorem subtree_ordConnected (p : List α) : (subtree p).OrdConnected :=
  ⟨fun _ hx _ hz _ hy => isPrefix_of_between hx hz (not_lt.mpr hy.1) (not_lt.mpr hy.2)⟩

/-- A gap that covers a list without ending below it covers everything below it. -/
theorem Between.of_subtree {o q x n : List α} (h : Between o q n) (hn : ¬ q <+: n) (hx : q <+: x) :
    Between o x n := by
  refine Between.of_ordConnected (subtree_ordConnected q) prefix_rfl hx (fun ho => ?_) hn h
  -- a left end below `q` would force the gap to wrap and to end below `q` as well
  have hqo : q ≤ o := le_of_isPrefix ho
  unfold Between at h
  split_ifs at h with hon
  · exact absurd h.1 (not_lt.mpr hqo)
  · have hqn : q<n := h.resolve_left (not_lt.mpr hqo)
    exact hn ((subtree_ordConnected q).out prefix_rfl ho ⟨hqn.le,not_lt.mp hon⟩)

end

section

/-- Each element with the one after it, the last one with the first. -/
def ring : List α → List (α × α)
  | [] => []
  | x::xs => (x::xs).zip (xs++[x])

theorem map_ring {β : Type*} (f : α → β) (xs : List α) : (ring xs).map (Prod.map f f)=ring (xs.map f) := by
  cases xs with
  | nil => rfl
  | cons x xs => rw [ring,← zip_map,map_append]; rfl

theorem map_fst_ring (xs : List α) : (ring xs).map Prod.fst=xs := by
  cases xs with
  | nil => rfl
  | cons x xs => exact map_fst_zip (by simp)

variable [LinearOrder α] {x z y : α} {xs : List α}

/-- The elements that a chain of links from `x` through `xs` to `z` names or covers: those links that
start at `y` and those that `y` lies strictly inside of. -/
private def hits (x z : α) (xs : List α) (y : α) : Nat :=
  ((x::xs).zip (xs++[z])).countP (·.1=y)+((x::xs).zip (xs++[z])).countP fun l => Between l.1 y l.2

private theorem hits_cons (x z p y : α) (xs : List α) :
    hits x z (p::xs) y=hits p z xs y+((if x=y then 1 else 0)+if Between x y p then 1 else 0) := by
  unfold hits
  rw [cons_append,zip_cons_cons,countP_cons,countP_cons]
  simp only [decide_eq_true_eq]
  omega

/-- Nothing before the first element of the chain is hit, unless the last link wraps past it. -/
private theorem hits_eq_zero (hs : (x::xs).Pairwise (· < ·)) (hyx : y<x) (hzy : z ≤ y) :
    hits x z xs y=0 := by
  induction xs generalizing x with
  | nil =>
    have hb : ¬ Between x y z := by
      rw [between_iff_of_le (hzy.trans hyx.le)]
      exact not_or.mpr ⟨not_lt.mpr hyx.le,not_lt.mpr hzy⟩
    simp [hits,hyx.ne',hb]
  | cons p xs ih =>
    obtain ⟨hxp,ht⟩ := pairwise_cons.mp hs
    have hxp : x<p := hxp p mem_cons_self
    have hb : ¬ Between x y p := by
      rw [between_iff_of_lt hxp]
      exact fun h => absurd h.1 (not_lt.mpr hyx.le)
    rw [hits_cons,ih ht (hyx.trans hxp),if_neg hyx.ne',if_neg hb]

private theorem hits_eq_one (hs : (x::xs).Pairwise (· < ·)) (hzx : z ≤ x) (hxy : x ≤ y) :
    hits x z xs y=1 := by
  induction xs generalizing x with
  | nil =>
    rcases hxy.eq_or_lt with rfl | hlt
    · have hb : ¬ Between x x z := not_between_left x z
      simp [hits,hb]
    · have hb : Between x y z := (between_iff_of_le hzx).mpr (.inl hlt)
      simp [hits,hlt.ne,hb]
  | cons p xs ih =>
    obtain ⟨hxp,ht⟩ := pairwise_cons.mp hs
    have hxp : x<p := hxp p mem_cons_self
    rw [hits_cons]
    rcases lt_or_ge y p with hyp | hpy
    · -- `y` starts the first link or lies inside it, and no later one
      rw [hits_eq_zero ht hyp (hzx.trans hxy)]
      rcases hxy.eq_or_lt with rfl | hlt
      · simp [not_between_left]
      · simp [between_iff_of_lt hxp,hlt,hlt.ne,hyp]
    · have hb : ¬ Between x y p := by
        rw [between_iff_of_lt hxp]
        exact fun h => absurd h.2 (not_lt.mpr hpy)
      rw [ih ht (hzx.trans hxp.le) hpy,if_neg (hxp.trans_le hpy).ne,if_neg hb]

/-- The links of a ring tile what lies at or after its first element: each point starts exactly one
link, or is strictly inside exactly one. -/
theorem ring_tiles {x y : α} {xs : List α} (hs : (x::xs).Pairwise (· < ·)) (hxy : x ≤ y) :
    (ring (x::xs)).countP (·.1=y)+(ring (x::xs)).countP (fun l => Between l.1 y l.2)=1 :=
  hits_eq_one hs le_rfl hxy

end

end RolodexDns.CyclicIntervals
