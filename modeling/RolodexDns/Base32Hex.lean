import Mathlib.Data.Fin.Basic
import Mathlib.Order.Fin.Basic
import Mathlib.Tactic.IntervalCases
import RolodexDns.DigitStrings
import RolodexDns.DomainNames

/-! The unpadded base32hex text of NSEC3 hashes. On byte strings of one length the encoding is
injective and keeps the order, which is what lets hashes be compared in text form. -/
namespace RolodexDns.Base32Hex
open DigitStrings List

def alphabet (d : Fin 32) : UInt8 :=
  if d.val<10 then UInt8.ofNat (48+d.val) else UInt8.ofNat (55+d.val)

variable (chunk : List UInt8) {a b l : List UInt8}

/-- The five-octet buffer of a chunk, zero-filled, as one number. -/
def chunkBits : ℕ :=
  value 256 ((chunk++replicate (5 - chunk.length) 0).map UInt8.toNat)

def chunkChars (len : ℕ) : ℕ :=
  match len with
  | 1 => 2
  | 2 => 4
  | 3 => 5
  | 4 => 7
  | _ => 8

def chunkDigits : List (Fin 32) :=
  (range (chunkChars chunk.length)).map fun i => Fin.ofNat 32 (chunkBits chunk / 32^(7 - i))

def encodeChunk : List UInt8 := (chunkDigits chunk).map alphabet

def base32hex : List UInt8 → List UInt8
  | [] => []
  | a::b::c::d::e::rest => encodeChunk [a,b,c,d,e]++base32hex rest
  | short => encodeChunk short

theorem alphabet_strictMono : StrictMono alphabet := by
  have h : ∀ i j : Fin 32,i<j → alphabet i<alphabet j := by decide
  exact fun i j => h i j

private theorem toNat_lt_256 : ∀ d∈l.map UInt8.toNat,d<256 := by
  intro d hd
  obtain ⟨b,-,rfl⟩ := mem_map.mp hd
  exact b.toNat_lt

private theorem toNat_strictMono : StrictMono UInt8.toNat := fun _ _ h => UInt8.lt_iff_toNat_lt.mp h

private theorem chunkBits_eq :
    chunkBits chunk=value 256 (chunk.map UInt8.toNat)*256^(5 - chunk.length) := by
  have hz : ∀ k,value 256 (replicate k 0)=0 := by
    intro k
    induction k with
    | zero => rfl
    | succ k ih => rw [replicate_succ,value_cons,ih,Nat.zero_mul]
  rw [chunkBits,map_append,map_replicate,value_append,length_replicate]
  simp [hz]

@[simp] theorem chunkDigits_length :
    (chunkDigits chunk).length=chunkChars chunk.length := by
  simp [chunkDigits]

/-- The digits kept are the chunk's bits without the octets of zero fill. -/
private theorem value_chunkDigits {chunk : List UInt8} (h0 : 0<chunk.length) (h5 : chunk.length ≤ 5) :
    value 32 ((chunkDigits chunk).map Fin.val) =
      chunkBits chunk / 32^(8 - chunkChars chunk.length) := by
  have hc : chunkChars chunk.length ≤ 8 := by
    unfold chunkChars
    split <;> omega
  have hb : chunkBits chunk<32^8 := by
    have h := value_lt_pow (@toNat_lt_256 (chunk++replicate (5 - chunk.length) 0))
    have hle : chunk.length+(5 - chunk.length)=5 := by omega
    simp only [length_map,length_append,length_replicate,hle] at h
    simpa [chunkBits] using h
  have hl := value_leading_digits 32 (chunkBits chunk) 8 hc
  have hm : (chunkDigits chunk).map Fin.val =
      (range (chunkChars chunk.length)).map fun i => chunkBits chunk / 32^(8 - 1 - i) % 32 := by
    simp [chunkDigits,Function.comp_def]
  rw [hm,hl]
  refine Nat.mod_eq_of_lt (Nat.div_lt_of_lt_mul ?_)
  rwa [← pow_add,Nat.sub_add_cancel hc]

/-- Dropping the fill keeps a positive power of two per unit, so the text value determines the
chunk and grows with it. -/
private theorem div_fill_lt_iff {u v k : ℕ} (h0 : 0<k) (h5 : k ≤ 5) :
    u*256^(5 - k) / 32^(8 - chunkChars k)<v*256^(5 - k) / 32^(8 - chunkChars k) ↔
      u<v := by
  interval_cases k <;> simp only [chunkChars] <;> omega

private theorem encodeChunk_lt_iff (hl : a.length=b.length) (h0 : 0<a.length)
    (h5 : a.length ≤ 5) : encodeChunk a<encodeChunk b ↔ a<b := by
  have hdi : ∀ c : List UInt8,∀ d∈(chunkDigits c).map Fin.val,d<32 := by
    intro c d hd
    obtain ⟨i,-,rfl⟩ := mem_map.mp hd
    exact i.isLt
  have hv : StrictMono (Fin.val : Fin 32 → ℕ) := Fin.val_strictMono
  calc encodeChunk a<encodeChunk b
      ↔ (chunkDigits a).map Fin.val<(chunkDigits b).map Fin.val := by
        rw [encodeChunk,encodeChunk,map_lt_map_iff alphabet_strictMono,map_lt_map_iff hv]
    _ ↔ chunkBits a / 32^(8 - chunkChars a.length)<chunkBits b / 32^(8 - chunkChars b.length) := by
        rw [← value_lt_iff (by simp [hl]) (hdi a) (hdi b),value_chunkDigits h0 h5,
          value_chunkDigits (hl ▸ h0) (hl ▸ h5)]
    _ ↔ value 256 (a.map UInt8.toNat)<value 256 (b.map UInt8.toNat) := by
        rw [chunkBits_eq,chunkBits_eq,← hl,div_fill_lt_iff h0 h5]
    _ ↔ a<b := by
        rw [value_lt_iff (by simp [hl]) toNat_lt_256 toNat_lt_256,map_lt_map_iff toNat_strictMono]

private theorem encodeChunk_eq_iff (hl : a.length=b.length) (h0 : 0<a.length)
    (h5 : a.length ≤ 5) : encodeChunk a=encodeChunk b ↔ a=b := by
  refine ⟨fun h => ?_,fun h => h ▸ rfl⟩
  have hab := (encodeChunk_lt_iff hl h0 h5).not.mp (by simp [h])
  have hba := (encodeChunk_lt_iff hl.symm (hl ▸ h0) (hl ▸ h5)).not.mp (by simp [h])
  exact le_antisymm (not_lt.mp hba) (not_lt.mp hab)

private theorem base32hex_short (h0 : 0<l.length) (h5 : l.length<5) :
    base32hex l=encodeChunk l := by
  unfold base32hex
  split
  · simp at h0
  · simp only [length_cons] at h5
    omega
  · rfl

private theorem exists_five (h : 5 ≤ l.length) :
    ∃ b₁ b₂ b₃ b₄ b₅ rest,l=b₁::b₂::b₃::b₄::b₅::rest := by
  match l, h with
  | b₁::b₂::b₃::b₄::b₅::rest, _ => exact ⟨b₁,b₂,b₃,b₄,b₅,rest,rfl⟩

/-- Text order is byte order on strings of one length. -/
theorem base32hex_lt_iff (hl : a.length=b.length) :
    base32hex a<base32hex b ↔ a<b := by
  fun_induction base32hex a generalizing b with
  | case1 =>
    obtain rfl : b=[] := length_eq_zero_iff.mp hl.symm
    simp [base32hex]
  | case2 a₁ a₂ a₃ a₄ a₅ rest ih =>
    have hb : 5 ≤ b.length := hl ▸ Nat.le_add_left 5 rest.length
    obtain ⟨b₁,b₂,b₃,b₄,b₅,brest,rfl⟩ := exists_five hb
    have hr : rest.length=brest.length := by simpa using hl
    have hc : (encodeChunk [a₁,a₂,a₃,a₄,a₅]).length =
        (encodeChunk [b₁,b₂,b₃,b₄,b₅]).length := by simp [encodeChunk]
    have hle : [a₁,a₂,a₃,a₄,a₅].length=[b₁,b₂,b₃,b₄,b₅].length := rfl
    have hs : [a₁,a₂,a₃,a₄,a₅]++rest<[b₁,b₂,b₃,b₄,b₅]++brest ↔ _ :=
      append_lt_append_iff hle
    rw [base32hex,append_lt_append_iff hc,ih hr,
      encodeChunk_lt_iff hle (by simp) (by simp),encodeChunk_eq_iff hle (by simp) (by simp)]
    exact hs.symm
  | case3 short hn hlo =>
    have h0 : 0<short.length := length_pos_of_ne_nil hn
    have h5 : short.length<5 := by
      by_contra hge
      obtain ⟨s₁,s₂,s₃,s₄,s₅,rest,rfl⟩ := exists_five (not_lt.mp hge)
      exact hlo s₁ s₂ s₃ s₄ s₅ rest rfl
    rw [@base32hex_short b (hl ▸ h0) (hl ▸ h5),encodeChunk_lt_iff hl h0 h5.le]

theorem base32hex_inj (hl : a.length=b.length) :
    base32hex a=base32hex b ↔ a=b := by
  refine ⟨fun h => ?_,fun h => h ▸ rfl⟩
  have hab := (base32hex_lt_iff hl).not.mp (by simp [h])
  have hba := (base32hex_lt_iff hl.symm).not.mp (by simp [h])
  exact le_antisymm (not_lt.mp hba) (not_lt.mp hab)

example : base32hex [0x66,0x6f,0x6f]=[67,80,78,77,85] := by decide

end RolodexDns.Base32Hex
