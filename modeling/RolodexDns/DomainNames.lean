import Mathlib.Algebra.GroupWithZero.Nat
import RolodexDns.CyclicIntervals

/-! Domain names as the resolver library compares them: labels leftmost first, already
folded to lower case, every label and the whole name within its wire bound. -/
namespace RolodexDns.DomainNames
open CyclicIntervals List

-- A list of octets or characters is decided element by element, although there are finitely many of them.
attribute [instance(2000)] List.decidableBAll List.decidableBEx

instance linearOrderUInt8 : LinearOrder UInt8 where
  le_refl := UInt8.le_refl
  le_trans := fun _ _ _ => UInt8.le_trans
  le_antisymm := fun _ _ => UInt8.le_antisymm
  le_total := UInt8.le_total
  lt_iff_le_not_ge := fun a b => by simp [UInt8.le_iff_toNat_le,UInt8.lt_iff_toNat_lt]; omega
  toDecidableLE := fun a b => inferInstanceAs (Decidable (a ≤ b))
  toDecidableLT := fun a b => inferInstanceAs (Decidable (a<b))

variable (b : UInt8)

def isUpper : Bool := 65 ≤ b && b ≤ 90

def asciiLower : UInt8 := if isUpper b then b+32 else b

theorem isUpper_asciiLower : isUpper (asciiLower b)=false := by
  unfold asciiLower
  split_ifs with h
  · have h65 : UInt8.toNat 65=65 := rfl
    have h90 : UInt8.toNat 90=90 := rfl
    have h32 : UInt8.toNat 32=32 := rfl
    simp only [isUpper,Bool.and_eq_true,decide_eq_true_eq,Bool.and_eq_false_iff,
      decide_eq_false_iff_not,UInt8.le_iff_toNat_le,UInt8.toNat_add] at h ⊢
    omega
  · simp_all

structure Label where
  bytes : List UInt8
  nonempty : bytes≠[]
  short : bytes.length ≤ 63
  folded : ∀ b∈bytes,isUpper b=false
deriving DecidableEq

theorem Label.bytes_injective : Function.Injective Label.bytes := by
  intro a b h
  cases a
  cases b
  simpa using h

instance : LinearOrder Label := LinearOrder.lift' Label.bytes Label.bytes_injective

/-- A label from raw octets, folded; the empty and the overlong ones are refused. -/
def Label.ofBytes (bytes : List UInt8) : Option Label :=
  if h : bytes≠[] ∧ bytes.length ≤ 63 then
    some ⟨bytes.map asciiLower,by simpa using h.1,by simpa using h.2,by simp [isUpper_asciiLower]⟩
  else none

def star : Label := ⟨[42],by decide,by decide,by decide +kernel⟩

/-- Octets of the labels on the wire: a length octet each, and the root's. -/
def wireLength (labels : List Label) : Nat :=
  (labels.map fun l => l.bytes.length+1).sum+1

structure Name where
  labels : List Label
  fits : wireLength labels ≤ 255
deriving DecidableEq

theorem Name.labels_injective : Function.Injective Name.labels := by
  intro a b h
  cases a
  cases b
  simpa using h

theorem wireLength_le_of_suffix {a b : List Label} (h : a <:+ b) : wireLength a ≤ wireLength b := by
  obtain ⟨c,rfl⟩ := h
  simp [wireLength]

namespace Name

variable (n : Name) {a b : Name} (k : Nat)

/-- The labels from the root downwards, the key of the canonical order. -/
def path : List Label := n.labels.reverse

theorem path_injective : Function.Injective path :=
  reverse_injective.comp labels_injective

instance : LinearOrder Name := LinearOrder.lift' path path_injective

theorem le_iff_path : a ≤ b ↔ a.path ≤ b.path := Iff.rfl

def root : Name := ⟨[],by decide +kernel⟩

def isRoot : Bool := n.labels.isEmpty

/-- The number of labels, a leading `*` not counted. -/
def numLabels : Nat :=
  match n.labels with
  | [] => 0
  | l::ls => if l=star then ls.length else ls.length+1

/-- The rightmost `k` labels; the name itself when it has fewer. -/
def trimTo : Name :=
  ⟨n.labels.drop (n.labels.length - k),
    (wireLength_le_of_suffix (drop_suffix _ _)).trans n.fits⟩

def baseName : Name :=
  ⟨n.labels.tail,(wireLength_le_of_suffix (tail_suffix _)).trans n.fits⟩

def zoneOf (z n : Name) : Bool := z.labels.isSuffixOf n.labels

def fromLabels (labels : List (List UInt8)) : Option Name :=
  (labels.mapM Label.ofBytes).bind fun ls => if h : wireLength ls ≤ 255 then some ⟨ls,h⟩ else none

def prependLabel (l : Label) (n : Name) : Option Name :=
  if h : wireLength (l::n.labels) ≤ 255 then some ⟨l::n.labels,h⟩ else none

theorem zoneOf_iff_suffix {z n : Name} : z.zoneOf n=true ↔ z.labels <:+ n.labels :=
  isSuffixOf_iff_suffix

/-- Subdomains are the extensions of a path from the root. -/
theorem zoneOf_iff_path {z n : Name} : z.zoneOf n=true ↔ z.path <+: n.path := by
  rw [zoneOf_iff_suffix,path,path, reverse_prefix]

@[simp] theorem zoneOf_refl : n.zoneOf n=true :=
  zoneOf_iff_suffix.mpr suffix_rfl

@[simp] theorem root_zoneOf : root.zoneOf n=true :=
  zoneOf_iff_suffix.mpr nil_suffix

theorem zoneOf_trans {a b c : Name} (hab : a.zoneOf b=true) (hbc : b.zoneOf c=true) :
    a.zoneOf c=true :=
  zoneOf_iff_suffix.mpr ((zoneOf_iff_suffix.mp hab).trans (zoneOf_iff_suffix.mp hbc))

theorem zoneOf_antisymm (hab : a.zoneOf b=true) (hba : b.zoneOf a=true) : a=b :=
  labels_injective ((zoneOf_iff_suffix.mp hab).eq_of_length_le
    (zoneOf_iff_suffix.mp hba).length_le)

theorem zoneOf_total {a b n : Name} (ha : a.zoneOf n=true) (hb : b.zoneOf n=true) :
    a.zoneOf b=true ∨ b.zoneOf a=true := by
  simp only [zoneOf_iff_suffix] at *
  exact suffix_or_suffix_of_suffix ha hb

theorem zoneOf_of_length_le {a b n : Name} (ha : a.zoneOf n=true) (hb : b.zoneOf n=true)
    (h : a.labels.length ≤ b.labels.length) : a.zoneOf b=true :=
  zoneOf_iff_suffix.mpr
    (suffix_of_suffix_length_le (zoneOf_iff_suffix.mp ha) (zoneOf_iff_suffix.mp hb) h)

theorem length_le_of_zoneOf (h : a.zoneOf b=true) : a.labels.length ≤ b.labels.length :=
  (zoneOf_iff_suffix.mp h).length_le

theorem le_of_zoneOf (h : a.zoneOf b=true) : a ≤ b :=
  le_iff_path.mpr (le_of_isPrefix (zoneOf_iff_path.mp h))

@[simp] theorem trimTo_zoneOf : (n.trimTo k).zoneOf n=true :=
  zoneOf_iff_suffix.mpr (drop_suffix _ _)

theorem baseName_zoneOf : n.baseName.zoneOf n=true :=
  zoneOf_iff_suffix.mpr (tail_suffix _)

@[simp] theorem trimTo_length :
    (n.trimTo k).labels.length=min k n.labels.length := by
  simp only [trimTo,length_drop]
  omega

theorem trimTo_eq_of_zoneOf {a n : Name} (h : a.zoneOf n=true) : n.trimTo a.labels.length=a := by
  have hl := length_le_of_zoneOf h
  refine zoneOf_antisymm (zoneOf_of_length_le (trimTo_zoneOf n _) h ?_)
    (zoneOf_of_length_le h (trimTo_zoneOf n _) ?_) <;> simp [hl]

theorem numLabels_le_length : n.numLabels ≤ n.labels.length := by
  unfold numLabels
  split
  · simp
  · rename_i h
    rw [h]
    split <;> simp

theorem length_le_numLabels_succ : n.labels.length ≤ n.numLabels+1 := by
  unfold numLabels
  split
  · rename_i h
    simp [h]
  · rename_i h
    rw [h]
    split <;> simp

theorem prependLabel_labels {l : Label} {n w : Name} (h : prependLabel l n=some w) :
    w.labels=l::n.labels := by
  unfold prependLabel at h
  split at h
  · simpa using (congrArg Name.labels (Option.some.inj h)).symm
  · cases h

/-- The order on names inherits the ring lemmas of paths. -/
theorem between_iff_path {o x n : Name} : Between o x n ↔ Between o.path x.path n.path := Iff.rfl

theorem below_ordConnected (z : Name) : {n : Name | z.zoneOf n=true}.OrdConnected := by
  refine ⟨fun a ha b hb x hx => ?_⟩
  have h := (subtree_ordConnected z.path).out (zoneOf_iff_path.mp ha) (zoneOf_iff_path.mp hb)
  exact zoneOf_iff_path.mpr (h ⟨le_iff_path.mp hx.1,le_iff_path.mp hx.2⟩)

/-- A gap that covers a name and does not end below it covers its whole subtree. -/
theorem between_of_zoneOf {o q x n : Name} (h : Between o q n) (hn : q.zoneOf n=false)
    (hx : q.zoneOf x=true) : Between o x n := by
  refine between_iff_path.mpr ((between_iff_path.mp h).of_subtree ?_ (zoneOf_iff_path.mp hx))
  rw [← zoneOf_iff_path,hn]
  exact Bool.false_ne_true

end Name

end RolodexDns.DomainNames
