import Stra2us.Foundation.Text

namespace Stra2us.Foundation

-- A table of routes, each a path with parameters, of which the first that fits is taken.
namespace Routing

-- A pattern is literal text, one segment, or what is left of the line.
inductive Part
  | literal (text : Text)
  | segment
  | rest
deriving DecidableEq

def literalPart (text : Text) : List Part :=
  if text = [] then [] else [.literal text]

def parameterPart (name : Text) : Part :=
  if ":path".toList.isSuffixOf name then .rest else .segment

-- The pass over a path template: the name being read, if any, and the literal text before.
def compileFrom : Option Text → Text → Text → List Part
  | none, text, [] => literalPart text
  | some _, _, [] => []
  | none, text, c :: more =>
      if c = '\x7b' then literalPart text ++ compileFrom (some []) [] more
      else compileFrom none (text ++ [c]) more
  | some name, _, c :: more =>
      if c = '\x7d' then parameterPart name :: compileFrom none [] more
      else compileFrom (some (name ++ [c])) [] more

def compilePath (template : Text) : List Part :=
  compileFrom none [] template

-- `$` also matches in front of a last newline.
def matchesParts : List Part → Text → Bool
  | [], path => path = [] || path = ['\n']
  | .literal text :: parts, path =>
      text.isPrefixOf path && matchesParts parts (path.drop text.length)
  | .segment :: parts, path =>
      (List.range (path.takeWhile (· ≠ '/')).length).any fun n =>
        matchesParts parts (path.drop (n + 1))
  | .rest :: parts, path =>
      (List.range ((path.takeWhile (· ≠ '\n')).length + 1)).any fun n =>
        matchesParts parts (path.drop n)

-- A mount takes any method.
structure Route (η : Type) where
  methods : Option (List Text)
  template : Text
  handler : η

inductive Dispatch (η : Type)
  | handled (handler : η)
  | methodNotAllowed
  | unmatched
deriving DecidableEq

section Dispatching

variable {η : Type} (table : List (Route η)) (method path : Text)

def Route.matchesPath (route : Route η) : Bool :=
  matchesParts (compilePath route.template) path

def Route.takes (route : Route η) : Bool :=
  match route.methods with
  | none => true
  | some methods => decide (method ∈ methods)

def dispatch : Dispatch η :=
  match table.find? fun route => route.matchesPath path && route.takes method with
  | some route => .handled route.handler
  | none => if table.any fun route => route.matchesPath path then .methodNotAllowed else .unmatched

variable {table method path}

-- What is handled has a route that fits.
theorem route_of_handled {handler : η} (h : dispatch table method path = .handled handler) :
    ∃ route ∈ table, route.handler = handler ∧ route.matchesPath path = true ∧
      route.takes method = true := by
  unfold dispatch at h
  cases hfind : table.find? fun route => route.matchesPath path && route.takes method with
  | some route =>
      rw [hfind] at h
      have hfits := List.find?_some hfind
      rw [Bool.and_eq_true] at hfits
      exact ⟨route, List.mem_of_find?_eq_some hfind, Dispatch.handled.inj h, hfits⟩
  | none =>
      rw [hfind] at h
      dsimp only at h
      split at h
      · cases h
      · cases h

theorem matchesParts_literal {text : Text} (h : matchesParts [.literal text] path = true) :
    path = text ∨ path = text ++ ['\n'] := by
  rw [matchesParts, Bool.and_eq_true, List.isPrefixOf_iff_prefix] at h
  obtain ⟨⟨tail, rfl⟩, htail⟩ := h
  simp only [matchesParts, List.drop_left, Bool.or_eq_true, decide_eq_true_eq] at htail
  cases htail with
  | inl hnone => exact .inl (by rw [hnone, List.append_nil])
  | inr hbreak => exact .inr (by rw [hbreak])

end Dispatching

end Routing

end Stra2us.Foundation
