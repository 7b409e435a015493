import Mathlib.Data.List.DropRight
import Mathlib.Data.Nat.Digits.Lemmas

/-! Text cut into fields at white space, and the numbers and octets such fields spell: decimal numbers of
a given width, hexadecimal octets, and numbers as octets with the highest first. -/
namespace RolodexDns.TextFields
open List

section

def isWhitespace (c : Char) : Bool :=
  let n := c.toNat
  (9 ≤ n && n ≤ 13) || n=32 || n=0x85 || n=0xA0 || n=0x1680 || (0x2000 ≤ n && n ≤ 0x200A) ||
    n=0x2028 || n=0x2029 || n=0x202F || n=0x205F || n=0x3000

def trim (s : List Char) : List Char := (s.dropWhile isWhitespace).rdropWhile isWhitespace

def splitWhitespace (s : List Char) : List (List Char) := (s.splitOnP isWhitespace).filter (· ≠ [])

variable {s front back field : List Char}

theorem splitWhitespace_append_sep (front back : List Char) {c : Char} (hc : isWhitespace c=true) :
    splitWhitespace (front++c::back)=splitWhitespace front++splitWhitespace back := by
  unfold splitWhitespace
  rw [splitOnP_append_cons front back hc,filter_append]

theorem splitWhitespace_nil : splitWhitespace []=[] := by
  simp [splitWhitespace]

theorem splitWhitespace_dropWhile (s : List Char) : splitWhitespace (s.dropWhile isWhitespace)=splitWhitespace s := by
  induction s with
  | nil => rfl
  | cons c s ih =>
    rw [dropWhile_cons]
    split_ifs with hc
    · have hs := splitWhitespace_append_sep [] s hc
      rw [ih]
      simpa [splitWhitespace_nil] using hs.symm
    · rfl

theorem splitWhitespace_rdropWhile (s : List Char) : splitWhitespace (s.rdropWhile isWhitespace)=splitWhitespace s := by
  induction s using reverseRecOn with
  | nil => rfl
  | append_singleton s c ih =>
    rw [rdropWhile_concat]
    split_ifs with hc
    · rw [ih,splitWhitespace_append_sep s [] hc,splitWhitespace_nil,append_nil]
    · rfl

theorem splitWhitespace_trim (s : List Char) : splitWhitespace (trim s)=splitWhitespace s := by
  rw [trim,splitWhitespace_rdropWhile,splitWhitespace_dropWhile]

theorem splitWhitespace_singleton (hne : field≠[]) (h : ∀ c∈field,isWhitespace c=false) :
    splitWhitespace field=[field] := by
  unfold splitWhitespace
  rw [splitOnP_eq_singleton]
  · simpa using hne
  · exact h

/-- Fields that are written with spaces between them are read back. -/
theorem splitWhitespace_cons (hne : field≠[]) (h : ∀ c∈field,isWhitespace c=false) (rest : List Char) :
    splitWhitespace (field ++ ' ' :: rest)=field::splitWhitespace rest := by
  rw [splitWhitespace_append_sep field rest (by decide),splitWhitespace_singleton hne h,singleton_append]

def IsField (field : List Char) : Prop := field≠[] ∧ ∀ c∈field,isWhitespace c=false

theorem splitWhitespace_intercalate {fields : List (List Char)} (h : ∀ f∈fields,IsField f) :
    splitWhitespace ([' '].intercalate fields)=fields := by
  induction fields with
  | nil => simp [splitWhitespace]
  | cons field fields ih =>
    obtain ⟨⟨hne,hb⟩,hf⟩ := forall_mem_cons.mp h
    cases fields with
    | nil => simpa [intercalate] using splitWhitespace_singleton hne hb
    | cons next fields =>
      have hs := splitWhitespace_cons hne hb ([' '].intercalate (next::fields))
      rw [ih hf] at hs
      simpa [intercalate] using hs

private theorem infix_of_mem_splitOnP {p : Char → Bool} (s : List Char) :
    (∀ f∈s.splitOnP p,f <:+: s) ∧ ∀ f,(s.splitOnP p).head?=some f → f <+: s := by
  induction s with
  | nil => simp
  | cons c s ih =>
    obtain ⟨hm,hh⟩ := ih
    rw [splitOnP_cons_eq_if_modifyHead]
    split
    · refine ⟨fun f hf => ?_,fun f hf => ?_⟩
      · rcases mem_cons.mp hf with rfl | hf
        · exact nil_infix
        · exact (hm f hf).trans (suffix_cons c s).isInfix
      · cases hf
        exact nil_prefix
    · cases hs : s.splitOnP p with
      | nil => simp
      | cons first rest =>
        have hfi : c::first <+: c::s := cons_prefix_cons.mpr ⟨rfl,hh first (by rw [hs]; rfl)⟩
        refine ⟨fun f hf => ?_,fun f hf => ?_⟩
        · rcases mem_cons.mp hf with rfl | hf
          · exact hfi.isInfix
          · exact (hm f (hs ▸ mem_cons_of_mem _ hf)).trans (suffix_cons c s).isInfix
        · cases hf
          exact hfi

theorem infix_of_mem_splitWhitespace (h : field∈splitWhitespace s) : field <:+: s :=
  (infix_of_mem_splitOnP s).1 field (mem_of_mem_filter h)

theorem trim_trim (s : List Char) : trim (trim s)=trim s := by
  have hf : (trim s).dropWhile isWhitespace=trim s := by
    obtain ⟨rest,hr⟩ := rdropWhile_prefix isWhitespace (s.dropWhile isWhitespace)
    change trim s++rest=s.dropWhile isWhitespace at hr
    cases ht : trim s with
    | nil => rfl
    | cons c t =>
      rw [ht] at hr
      have hi : (c::t++rest).dropWhile isWhitespace=c::t++rest := by rw [hr,dropWhile_idempotent]
      have hc : ¬ isWhitespace c=true := by
        intro hc
        rw [cons_append,dropWhile_cons_of_pos hc] at hi
        have hl := (dropWhile_suffix isWhitespace (l := t++rest)).length_le
        rw [hi,length_cons] at hl
        omega
      exact dropWhile_cons_of_neg hc
  rw [trim,hf,trim,rdropWhile_idempotent]

end

section

def parseDigits (s : List Char) : Option Nat :=
  if s.isEmpty then none
  else s.foldl (fun acc c => acc.bind fun n => if c.isDigit then some (10*n+(c.toNat - 48)) else none) (some 0)

/-- An unsigned number below the bound; a plus sign may precede it. -/
def parseUnsigned (bound : Nat) (s : List Char) : Option Nat :=
  let digits := match s with
    | '+' :: rest => rest
    | s => s
  (parseDigits digits).filter (· < bound)

def parseI32 : List Char → Option Int
  | '-' :: rest => ((parseDigits rest).filter (· ≤ 2^31)).map fun n : Nat => -(n : Int)
  | s => (parseUnsigned (2^31) s).map Int.ofNat

variable (n : Nat)

def decimal : List Char := Nat.toDigits 10 n

/-- So many octets of a number, the highest first. -/
def bigEndian (width n : Nat) : List UInt8 := (range width).reverse.map fun i => UInt8.ofNat (n / 256^i)

theorem isWhitespace_of_isDigit {c : Char} (h : c.isDigit=true) : isWhitespace c=false := by
  have hb : 48 ≤ c.toNat ∧ c.toNat ≤ 57 := by
    simp only [Char.isDigit,Bool.and_eq_true,decide_eq_true_eq,ge_iff_le] at h
    exact ⟨UInt32.le_iff_toNat_le.mp h.1,UInt32.le_iff_toNat_le.mp h.2⟩
  simp only [isWhitespace,Bool.or_eq_false_iff,Bool.and_eq_false_iff,decide_eq_false_iff_not]
  omega

theorem isWhitespace_of_mem_decimal {n : Nat} {c : Char} (h : c∈decimal n) : isWhitespace c=false :=
  isWhitespace_of_isDigit (Nat.isDigit_of_mem_toDigits (by decide) (by decide) h)

theorem isField_decimal : IsField (decimal n) := ⟨Nat.toDigits_ne_nil,fun _ => isWhitespace_of_mem_decimal⟩

theorem splitWhitespace_decimal (rest : List Char) :
    splitWhitespace (decimal n ++ ' ' :: rest)=decimal n::splitWhitespace rest :=
  splitWhitespace_cons Nat.toDigits_ne_nil (fun _ => isWhitespace_of_mem_decimal) rest

private theorem foldl_digits {s : List Char} (h : ∀ c∈s,c.isDigit=true) (n : Nat) :
    s.foldl (fun acc c => acc.bind fun n => if c.isDigit then some (10*n+(c.toNat - 48)) else none) (some n) =
      some (Nat.ofDigitChars 10 s n) := by
  induction s generalizing n with
  | nil => rfl
  | cons c s ih =>
    obtain ⟨hc,hs⟩ := forall_mem_cons.mp h
    rw [foldl_cons,Option.bind_some,if_pos hc,ih hs]
    rfl

theorem parseUnsigned_decimal {bound n : Nat} (h : n<bound) : parseUnsigned bound (decimal n)=some n := by
  have hd : ∀ c∈decimal n,c.isDigit=true := fun c hc => Nat.isDigit_of_mem_toDigits (by decide) (by decide) hc
  have hne : decimal n≠[] := Nat.toDigits_ne_nil
  have hp : parseDigits (decimal n)=some n := by
    rw [parseDigits,if_neg (by simpa using hne),foldl_digits hd]
    exact congrArg some (Nat.ofDigitChars_toDigits (by decide) (by decide))
  unfold parseUnsigned
  split
  · rename_i rest hpl
    exact absurd (hd '+' (by rw [hpl]; exact mem_cons_self)) (by decide)
  · dsimp only
    rw [hp]
    simp [h]

end

section

def hexDigit (n : Nat) : Char := if n<10 then Char.ofNat (48+n) else Char.ofNat (87+n)

def hexValue (c : Char) : Option Nat :=
  if '0' ≤ c ∧ c ≤ '9' then some (c.toNat - 48)
  else if 'a' ≤ c ∧ c ≤ 'f' then some (c.toNat - 87)
  else if 'A' ≤ c ∧ c ≤ 'F' then some (c.toNat - 55)
  else none

variable (bytes : List UInt8)

def hexEncode : List Char :=
  bytes.flatMap fun b => [hexDigit (b.toNat / 16),hexDigit (b.toNat % 16)]

def hexDecode : List Char → Option (List UInt8)
  | [] => some []
  | [_] => none
  | high::low::rest => do
    let h ← hexValue high
    let l ← hexValue low
    let bytes ← hexDecode rest
    return UInt8.ofNat (16*h+l)::bytes

theorem hexValue_hexDigit {n : Nat} (h : n<16) : hexValue (hexDigit n)=some n ∧ isWhitespace (hexDigit n)=false := by
  have ha : ∀ n : Fin 16,hexValue (hexDigit n)=some n.val ∧ isWhitespace (hexDigit n)=false := by decide
  exact ha ⟨n,h⟩

theorem hexDecode_hexEncode : hexDecode (hexEncode bytes)=some bytes := by
  induction bytes with
  | nil => rfl
  | cons b bytes ih =>
    have hb := b.toNat_lt
    unfold hexEncode at ih ⊢
    rw [flatMap_cons]
    simp only [cons_append,nil_append,hexDecode,ih]
    rw [(hexValue_hexDigit (by omega)).1,(hexValue_hexDigit (by omega)).1]
    have hd : 16*(b.toNat / 16)+b.toNat % 16=b.toNat := by omega
    simp only [Option.bind_eq_bind,Option.bind_some,hd,UInt8.ofNat_toNat,Option.pure_def]

theorem isField_hexEncode {bytes : List UInt8} (h : bytes≠[]) : IsField (hexEncode bytes) := by
  refine ⟨?_,fun c hc => ?_⟩
  · cases bytes with
    | nil => exact absurd rfl h
    | cons b bytes => simp [hexEncode]
  · obtain ⟨b,-,hc⟩ := mem_flatMap.mp hc
    have hb := b.toNat_lt
    simp only [mem_cons,not_mem_nil,or_false] at hc
    rcases hc with rfl | rfl
    · exact (hexValue_hexDigit (by omega)).2
    · exact (hexValue_hexDigit (by omega)).2

end

end RolodexDns.TextFields
