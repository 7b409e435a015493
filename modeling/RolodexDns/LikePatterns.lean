import Mathlib.Data.List.Infix
import Mathlib.Tactic.Common

/-! The patterns of SQL: a percent sign stands for any text, an underscore for any character, and letters match
in either case. -/
namespace RolodexDns.LikePatterns

/-- Matches a pattern whose first character is to be taken literally or not. -/
def likeFrom (escape : Option Char) : Bool → List Char → List Char → Bool
  | literal, [], text => !literal && text.isEmpty
  | literal, c::pattern, text =>
    if !literal && escape=some c then likeFrom escape true pattern text
    else if !literal && c = '%' then text.tails.any (likeFrom escape false pattern)
    else text.head?.any (fun t => !literal && c = '_' || c.toLower=t.toLower) && likeFrom escape false pattern text.tail

/-- Whether the text matches the pattern. What follows the escape character stands for itself. -/
def like (escape : Option Char) (pattern text : List Char) : Bool := likeFrom escape false pattern text

/-- The two wildcards and the escape character are escaped. -/
def likeEscape (s : List Char) : List Char :=
  s.flatMap fun c => if c = '\\' ∨ c = '%' ∨ c = '_' then ['\\',c] else [c]

variable {escape : Option Char} {pattern text : List Char}

theorem like_nil : like escape [] text=text.isEmpty := by
  simp [like,likeFrom]

theorem like_percent (h : escape≠some '%') :
    like escape ('%' :: pattern) text=true ↔ ∃ back,back <:+ text ∧ like escape pattern back=true := by
  simp [like,likeFrom,h]

theorem like_self (s : List Char) : like none s s=true := by
  induction s with
  | nil => simp [like_nil]
  | cons c s ih =>
    by_cases hp : c = '%'
    · subst hp
      exact (like_percent (by simp)).mpr ⟨s,List.suffix_cons _ s,ih⟩
    · simpa [like,likeFrom,hp] using ih

end RolodexDns.LikePatterns
