/-
Globs.

A glob is matched against a whole relative path. A star stands for any part of one
name, a question mark for one character of a name, square brackets for one character
of a class. Two stars that are a whole part of the path stand for any number of
directories; at the end of a glob they stand for anything.

Matching is tried from left to right with the shortest choice for a star first. When
the path ends too early for what follows, no longer choice can help, and the whole
attempt ends; the three outcomes tell this apart.
-/
import CodeAtlas.Text.Basic

set_option autoImplicit false

namespace CodeAtlas

/-- One member of a class of characters. -/
inductive GlobRange where
  | one (c : Char)
  | span (a b : Char)
  deriving DecidableEq, Repr

def GlobRange.holds (c : Char) : GlobRange → Bool
  | .one d => c = d
  | .span a b => a ≤ c && c ≤ b

/-- One element of a glob. -/
inductive GlobToken where
  | char (c : Char)
  | anyChar
  | within (ranges : List GlobRange)
  | except (ranges : List GlobRange)
  | anySequence
  | anyDirectories
  deriving DecidableEq, Repr

/-- Why a glob is refused. -/
inductive GlobFault where
  | manyStars | starsInPart | badRange
  deriving DecidableEq, Repr

/-- A refused glob: the reason, and the character at which it shows. -/
structure GlobError where
  position : Nat
  fault : GlobFault
  deriving DecidableEq, Repr

def GlobError.message (e : GlobError) : String :=
  "Pattern syntax error near position " ++ toString e.position ++ ": " ++
    match e.fault with
    | .manyStars => "wildcards are either regular \x60*\x60 or recursive \x60**\x60"
    | .starsInPart => "recursive wildcards must form a single path component"
    | .badRange => "invalid range pattern"

structure Glob where
  tokens : List GlobToken
  deriving DecidableEq, Repr

namespace Glob

/-! ## Reading -/

/-- The members of a class, from what stands between its brackets. -/
def ranges : List Char → List GlobRange
  | a :: '-' :: b :: t => .span a b :: ranges t
  | a :: t => .one a :: ranges t
  | [] => []

/-- Splits at the first closing bracket that is not the first character. -/
def classBody? : List Char → Option (List Char × List Char)
  | [] => none
  | c :: t =>
    match Text.cut? [']'] t with
    | some (body, rest) => some (c :: body, rest)
    | none => none

/-- Reads a class behind its opening bracket: the token and what follows it. -/
def class? : List Char → Option (GlobToken × List Char)
  | '!' :: t => (classBody? t).map fun (body, rest) => (.except (ranges body), rest)
  | t => (classBody? t).map fun (body, rest) => (.within (ranges body), rest)

/-- Two stars for directories are joined with those in front of them, unless these stand
at the very start. The tokens stand backwards. -/
def pushDirectories : List GlobToken → List GlobToken
  | .anyDirectories :: t :: ts => .anyDirectories :: t :: ts
  | ts => .anyDirectories :: ts

/-- Reads the tokens from position `at_` on, behind the character `prev`; the tokens so
far stand backwards. The text gets shorter by at least one character a step. -/
def tokensFrom (fuel at_ : Nat) (prev : Option Char) (seen : List GlobToken) (t : List Char) :
    Except GlobError (List GlobToken) :=
  match fuel, t with
  | _, [] => .ok seen.reverse
  | 0, _ => .ok seen.reverse
  | fuel + 1, '?' :: t => tokensFrom fuel (at_ + 1) (some '?') (.anyChar :: seen) t
  | fuel + 1, '[' :: t =>
    match class? t with
    | some (token, rest) =>
      tokensFrom fuel (at_ + 1 + t.length - rest.length) (some ']') (token :: seen) rest
    | none => .error ⟨at_, .badRange⟩
  | _, '*' :: '*' :: '*' :: _ => .error ⟨at_ + 2, .manyStars⟩
  | fuel + 1, '*' :: '*' :: t =>
    if prev.isSome && prev ≠ some '/' then .error ⟨at_ - 1, .starsInPart⟩
    else
      match t with
      | [] => .ok (pushDirectories seen).reverse
      | '/' :: t => tokensFrom fuel (at_ + 3) (some '/') (pushDirectories seen) t
      | _ => .error ⟨at_ + 2, .starsInPart⟩
  | fuel + 1, '*' :: t => tokensFrom fuel (at_ + 1) (some '*') (.anySequence :: seen) t
  | fuel + 1, c :: t => tokensFrom fuel (at_ + 1) (some c) (.char c :: seen) t

def parse (s : String) : Except GlobError Glob :=
  (tokensFrom s.length 0 none [] s.toList).map fun tokens => ⟨tokens⟩

/-! ## Matching -/

/-- How an attempt ends. -/
inductive Outcome where
  | matched
  /-- another choice for a star may still help -/
  | failed
  /-- the path is too short for what follows -/
  | exhausted
  deriving DecidableEq, Repr

/-- Lets a star take more and more characters and then goes on with `k`, which gets the
rest of the path. A star for one name stops at a slash, one for directories goes on
only behind one. -/
def stretch (directories : Bool) (k : List Char → Outcome) : List Char → Outcome
  | [] => k []
  | c :: t =>
    if directories then
      if c ≠ '/' then stretch directories k t
      else match k t with
        | .failed => stretch directories k t
        | o => o
    else if c = '/' then .failed
    else match k t with
      | .failed => stretch directories k t
      | o => o

/-- Does the token stand for the character? No class holds a slash. -/
def GlobToken.takes (token : GlobToken) (c : Char) : Bool :=
  match token with
  | .char d => c = d
  | .anyChar => c ≠ '/'
  | .within rs => c ≠ '/' && rs.any (·.holds c)
  | .except rs => c ≠ '/' && !rs.any (·.holds c)
  | .anySequence | .anyDirectories => false

/-- Matches the tokens against a path. -/
def matchTokens : List GlobToken → List Char → Outcome
  | [], [] => .matched
  | [], _ :: _ => .failed
  | .anySequence :: ts, path =>
    match matchTokens ts path with
    | .failed => stretch false (matchTokens ts) path
    | o => o
  | .anyDirectories :: ts, path =>
    match matchTokens ts path with
    | .failed => stretch true (matchTokens ts) path
    | o => o
  | _ :: _, [] => .exhausted
  | token :: ts, c :: path => if GlobToken.takes token c then matchTokens ts path else .failed

/-- Does the glob match the whole path? -/
def accepts (g : Glob) (path : List Char) : Bool := matchTokens g.tokens path = .matched

end Glob

end CodeAtlas
