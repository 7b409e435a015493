import Mathlib.Data.List.Lex
import Mathlib.Tactic.Ring

/-! Fixed-length digit strings, most significant digit first: their lexicographic order is the
order of their values. -/
namespace RolodexDns.DigitStrings
open List

variable (b : ℕ) (ds : List ℕ)

/-- The number a string of digits denotes in base `b`. -/
def value : ℕ := ds.foldl (fun v d => v*b+d) 0

@[simp] theorem value_nil : value b []=0 := rfl

theorem value_concat (d : ℕ) : value b (ds++[d])=value b ds*b+d := by
  simp [value]

private theorem foldl_digits (b v : ℕ) (ds : List ℕ) :
    ds.foldl (fun v d => v*b+d) v=v*b^ds.length+value b ds := by
  induction ds generalizing v with
  | nil => simp
  | cons d ds ih =>
    have h0 := ih d
    have hv := ih (v*b+d)
    simp only [value,foldl_cons,length_cons,Nat.zero_mul,Nat.zero_add] at h0 hv ⊢
    rw [hv,h0]
    ring

theorem value_cons (b d : ℕ) (ds : List ℕ) : value b (d::ds)=d*b^ds.length+value b ds := by
  have h := foldl_digits b d ds
  simpa [value] using h

theorem value_append (xs ys : List ℕ) :
    value b (xs++ys)=value b xs*b^ys.length+value b ys := by
  have h := foldl_digits b (value b xs) ys
  simpa [value,foldl_append] using h

theorem value_lt_pow {b : ℕ} {ds : List ℕ} (h : ∀ d∈ds,d<b) : value b ds<b^ds.length := by
  induction ds with
  | nil => simp
  | cons d ds ih =>
    have hd := h d mem_cons_self
    have hds := ih fun x hx => h x (mem_cons_of_mem d hx)
    have hm : (d+1)*b^ds.length ≤ b*b^ds.length := Nat.mul_le_mul_right _ hd
    rw [value_cons,length_cons,pow_succ']
    rw [Nat.add_mul,Nat.one_mul] at hm
    omega

/-- Strings of one length compare as their values do. -/
theorem value_lt_iff {b : ℕ} {xs ys : List ℕ} (hl : xs.length=ys.length)
    (hx : ∀ d∈xs,d<b) (hy : ∀ d∈ys,d<b) : value b xs<value b ys ↔ xs<ys := by
  induction xs generalizing ys with
  | nil =>
    obtain rfl : ys=[] := length_eq_zero_iff.mp hl.symm
    simp
  | cons x xs ih =>
    cases ys with
    | nil => simp at hl
    | cons y ys =>
      have hl' : xs.length=ys.length := by simpa using hl
      have hx' : ∀ d∈xs,d<b := fun d hd => hx d (mem_cons_of_mem x hd)
      have hy' : ∀ d∈ys,d<b := fun d hd => hy d (mem_cons_of_mem y hd)
      have hvx := value_lt_pow hx'
      have hvy := value_lt_pow hy'
      rw [value_cons,value_cons,cons_lt_cons_iff,← ih hl' hx' hy',hl']
      rw [hl'] at hvx
      -- a smaller leading digit outweighs whatever follows it
      have outweighs : ∀ {i j u v : ℕ},i<j → u<b^ys.length →
          i*b^ys.length+u<j*b^ys.length+v := by
        intro i j u v hij hu
        have hm : (i+1)*b^ys.length ≤ j*b^ys.length := Nat.mul_le_mul_right _ hij
        rw [Nat.add_mul,Nat.one_mul] at hm
        omega
      rcases lt_trichotomy x y with h | rfl | h
      · simp [h,outweighs h hvx]
      · simp
      · have hgt : _<x*b^ys.length+value b xs := outweighs h hvy
        simp [h.ne',not_lt.mpr h.le,hgt.le]

/-- Reading `c` of the `k` digits of a number from the top gives its leading part. -/
theorem value_leading_digits (b n k : ℕ) {c : ℕ} (hc : c ≤ k) :
    value b ((range c).map fun i => n / b^(k - 1 - i) % b)=n / b^(k - c) % b^c := by
  induction c with
  | zero => simp [Nat.mod_one]
  | succ c ih =>
    have hk : k - c=k - 1 - c+1 := by omega
    have hk' : k - (c+1)=k - 1 - c := by omega
    rw [range_succ,map_append,map_singleton,value_concat,ih (by omega),hk,hk',
      pow_succ b (k - 1 - c),← Nat.div_div_eq_div_mul,pow_succ' b c,Nat.mod_mul]
    ring

/-- Strings whose heads have one length compare by the heads first. -/
theorem append_lt_append_iff {α : Type*} [LinearOrder α] {a b as bs : List α}
    (hl : a.length=b.length) : a++as<b++bs ↔ a<b ∨ a=b ∧ as<bs := by
  induction a generalizing b with
  | nil =>
    obtain rfl : b=[] := length_eq_zero_iff.mp hl.symm
    simp
  | cons x a ih =>
    cases b with
    | nil => simp at hl
    | cons y b =>
      simp only [cons_append,cons_lt_cons_iff,ih (by simpa using hl),
        cons.injEq]
      tauto

theorem map_lt_map_iff {α β : Type*} [LinearOrder α] [LinearOrder β] {f : α → β} (hf : StrictMono f)
    {xs ys : List α} : xs.map f<ys.map f ↔ xs<ys := by
  induction xs generalizing ys with
  | nil => cases ys <;> simp
  | cons x xs ih =>
    cases ys with
    | nil => simp
    | cons y ys => simp [cons_lt_cons_iff,hf.lt_iff_lt,hf.injective.eq_iff,ih]

end RolodexDns.DigitStrings
