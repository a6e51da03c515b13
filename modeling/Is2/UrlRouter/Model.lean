import Mathlib.Algebra.BigOperators.Group.List.Basic
import Mathlib.Algebra.Ring.Nat
import Mathlib.Algebra.Ring.Int.Defs

/-!
# `url_router`: the trie of routes

`add_route` turns a route into a pattern, a list of *parts* (a string, a `<parameter>`, the
terminal `*`), and inserts it into a trie whose edges carry patterns.  An edge is split where the
new pattern leaves it, at an offset that `pattern_diff` counts and `pattern_sub` cuts at.
`find_route` walks the trie along the path of a request.

The functions here are those of `url_router.cc`, under its names.  The outer `Option` of a result
is `none` where the source has no defined result: a string is read past its end, or the recursion
of `insert_route` does not end within `depth` nested calls.  Counts are natural numbers; they are
the source's 32 bit counts as long as routes are shorter than `2 ^ 31` (`Route`).
-/

namespace Is2

/-- A `std::string` of bytes. -/
abbrev Str := List UInt8

namespace UrlRouter

/-- `/` -/
abbrev slash : UInt8 := 47

/-! ## Patterns -/

inductive PartType where
  | string
  | parameter
  | terminal
  deriving DecidableEq

/-- `part_t`.  The string of a terminal is always empty. -/
inductive Part where
  | string (str : Str)
  | parameter (str : Str)
  | terminal
  deriving DecidableEq

/-- `m_type` -/
def Part.type : Part → PartType
  | .string _ => .string
  | .parameter _ => .parameter
  | .terminal => .terminal

/-- `m_str` -/
def Part.str : Part → Str
  | .string str => str
  | .parameter str => str
  | .terminal => []

/-- A part of the same type with another string. -/
def Part.withStr : Part → Str → Part
  | .string _, str => .string str
  | .parameter _, str => .parameter str
  | .terminal, _ => .terminal

/-- `pattern_t` -/
abbrev Pattern := List Part

/-- What `pattern_len` counts for one part: the brackets of a parameter count, and so does `*`. -/
def Part.len : Part → ℕ
  | .parameter str => 2 + str.length
  | .string str => str.length
  | .terminal => 1

def patternLen (a : Pattern) : ℕ := (a.map Part.len).sum

/-- `string_diff`: how far the first string follows the second one.  The count is of the second
string only, so where the first one ends and the second one goes on with a NUL, the source reads
past the end. -/
def stringDiff : Str → Str → Option ℕ
  | _, [] => some 0
  | [], y :: _ => if y = 0 then none else some 0
  | x :: xs, y :: ys => if x = y then (stringDiff xs ys).map (· + 1) else some 0

/-- The loop of `pattern_diff`, with `len` counted so far. -/
def patternDiffFrom (len : ℤ) : Pattern → Pattern → Option ℤ
  | x :: xs, y :: ys => do
    let diff ← stringDiff x.str y.str
    if 0 < diff ∧ diff ≠ x.str.length then
      some (len + diff)
    else if diff = 0 then
      some len
    else if x.type ≠ y.type then
      some (-1)
    else
      patternDiffFrom (len + diff + if x.type = .parameter then 2 else 0) xs ys
  | _, _ => some len

/-- `pattern_diff`: the length of the common prefix, `-1` on parts of different types. -/
def patternDiff (a1 a2 : Pattern) : Option ℤ := patternDiffFrom 0 a1 a2

/-- The variables of the loops of `pattern_sub`, apart from the result. -/
structure SubState where
  found : Bool
  off : ℕ
  len : ℕ

/-- The loop of `pattern_sub` over the characters of a part. -/
def subChars (aOffset aLen : ℕ) : Str → SubState → Str × SubState
  | [], s => ([], s)
  | c :: cs, s =>
    if s.len < aLen then
      if s.found ∨ aOffset ≤ s.off then
        let r := subChars aOffset aLen cs ⟨true, s.off + 1, s.len + 1⟩
        (c :: r.1, r.2)
      else
        subChars aOffset aLen cs ⟨false, s.off + 1, s.len⟩
    else
      ([], s)

/-- A bracket of a parameter: it counts for the offset, and for the length once found. -/
def SubState.bracket (x : Part) (s : SubState) : SubState :=
  if x.type = .parameter then
    { s with off := s.off + 1, len := if s.found then s.len + 1 else s.len }
  else
    s

/-- The body of the loop of `pattern_sub` over the parts: what it has of the part. -/
def subPart (aOffset aLen : ℕ) (x : Part) (s : SubState) : Part × SubState :=
  let r := subChars aOffset aLen x.str (s.bracket x)
  (x.withStr r.1, r.2.bracket x)

/-- The loop of `pattern_sub` over the parts.  The start is looked for at characters only. -/
def subParts (aOffset aLen : ℕ) : Pattern → SubState → Pattern
  | [], _ => []
  | x :: xs, s =>
    let r := subPart aOffset aLen x s
    let out := if r.2.found then [r.1] else []
    if aLen ≤ r.2.len then out else out ++ subParts aOffset aLen xs r.2

/-- `pattern_sub` -/
def patternSub (a : Pattern) (aOffset aLen : ℕ) : Pattern :=
  subParts aOffset aLen a ⟨aOffset = 0, 0, 0⟩

/-! ## Routes -/

/-- A route that the counts of the source can hold. -/
structure Route where
  bytes : Str
  short : bytes.length + 1 < 2 ^ 31

/-- The loop of `convert_path_to_pattern`: the character before, what is left of the path, and the
part that is being read. -/
def convertFrom : UInt8 → Str → Part → Option Pattern
  | _, [], part =>
    if part.type = .parameter then none
    else some (if part.str = [] then [] else [part])
  | prev, c :: cs, part =>
    if c = 60 then
      -- `<`
      if part.type = .parameter ∨ prev ≠ slash then none
      else (convertFrom c cs (.parameter [])).map (part :: ·)
    else if c = 62 then
      -- `>`
      if part.type ≠ .parameter ∨ (cs ≠ [] ∧ cs.head? ≠ some slash) then none
      else (convertFrom c cs (.string [])).map (part :: ·)
    else if c = 42 then
      -- `*`: what follows is not read
      some [part, .terminal]
    else
      convertFrom c cs (part.withStr (part.str ++ [c]))

/-- The path starts with `/` and does not end with one. -/
def sanitizePath (route : Str) : Str :=
  let path := if route.head? = some slash then route else slash :: route
  if 1 < path.length ∧ path.getLast? = some slash then path.dropLast else path

/-- `convert_path_to_pattern`; `none` where it returns `-1`. -/
def convertPathToPattern (route : Str) : Option Pattern :=
  convertFrom 0 (sanitizePath route) (.string [])

/-! ## The trie -/

mutual

/-- `node` -/
inductive Node (δ : Type) where
  | mk (endpoint : ℕ) (data : Option δ) (edgeList : List (Edge δ))

/-- `edge` -/
inductive Edge (δ : Type) where
  | mk (pattern : Pattern) (child : Node δ)

end

variable {δ : Type}

def Node.endpoint : Node δ → ℕ
  | .mk endpoint _ _ => endpoint

def Node.data : Node δ → Option δ
  | .mk _ data _ => data

def Node.edgeList : Node δ → List (Edge δ)
  | .mk _ _ edgeList => edgeList

def Edge.pattern : Edge δ → Pattern
  | .mk pattern _ => pattern

def Edge.child : Edge δ → Node δ
  | .mk _ child => child

/-- A new node. -/
def Node.new : Node δ := .mk 0 none []

/-- The node with its `i`th edge replaced. -/
def Node.setEdge (n : Node δ) (i : ℕ) (e : Edge δ) : Node δ :=
  .mk n.endpoint n.data (n.edgeList.set i e)

/-- The node with other data. -/
def Node.setData (n : Node δ) (data : Option δ) : Node δ :=
  .mk n.endpoint data n.edgeList

/-- `edge::branch`: the child's edges, endpoint and data move to a new node below it. -/
def Edge.branch (e : Edge δ) (aOffset : ℕ) : Edge δ :=
  let newChild := Node.mk e.child.endpoint e.child.data e.child.edgeList
  let newEdge := Edge.mk (patternSub e.pattern aOffset (patternLen e.pattern)) newChild
  .mk (patternSub e.pattern 0 aOffset) (.mk 0 none [newEdge])

/-- `pattern_match` compares the patterns part by part; `node::find_edge` looks for a pattern. -/
def Node.findEdge (n : Node δ) (a : Pattern) : Option (Edge δ) :=
  n.edgeList.find? fun e => e.pattern = a

/-- `node::connect`: where there is an edge with this pattern, the new node is not connected, and
the call succeeds. -/
def Node.connect (n child : Node δ) (a : Pattern) : Node δ :=
  match n.findEdge a with
  | some _ => n
  | none => .mk n.endpoint n.data (n.edgeList ++ [.mk a child])

/-- The loop of `find_longest_common_prefix`: the position of the edge, the longest prefix so far
and its edge, and the prefix of the edge before. -/
def lcpFrom (a : Pattern) : List (Edge δ) → ℕ → ℕ → Option ℕ → ℤ → Option (Option (ℕ × Option ℕ))
  | [], _, _, edge, commonLen => some (some (commonLen.toNat, edge))
  | e :: es, i, longest, edge, _ => do
    let commonLen ← patternDiff a e.pattern
    if commonLen < 0 then
      some none
    else if longest < commonLen.toNat then
      lcpFrom a es (i + 1) commonLen.toNat (some i) commonLen
    else
      lcpFrom a es (i + 1) longest edge commonLen

/-- `node::find_longest_common_prefix`: a prefix length and the position of an edge.  The edge is
the one with the longest prefix, the length is that of the *last* edge. -/
def Node.findLongestCommonPrefix (n : Node δ) (a : Pattern) :
    Option (Option (ℕ × Option ℕ)) :=
  lcpFrom a n.edgeList 0 0 none 0

/-- `node::collision_test`: whether it returns 0. -/
def Node.collisionTest : ℕ → Node δ → Pattern → Option Bool
  | 0, _, _ => none
  | depth + 1, n, a => do
    match ← n.findLongestCommonPrefix a with
    | none => some false
    | some (prefixLen, commonEdge) =>
      if prefixLen = 0 then
        some true
      else
        let i ← commonEdge
        let e ← n.edgeList[i]?
        if prefixLen = patternLen e.pattern then
          let subpattern := patternSub a prefixLen (patternLen a - prefixLen)
          if patternLen subpattern = 0 then some false
          else e.child.collisionTest depth subpattern
        else
          some true

/-- `node::insert_route`: the node after it, and whether a node is returned. -/
def Node.insertRoute : ℕ → Node δ → Pattern → Option δ → Option (Node δ × Bool)
  | 0, _, _, _ => none
  | depth + 1, n, a, data => do
    let free ← n.collisionTest (depth + 1) a
    if free = false then
      some (n, false)
    else
      match ← n.findLongestCommonPrefix a with
      | none => some (n, false)
      | some (prefixLen, commonEdge) =>
        if prefixLen = 0 then
          some (n.connect (.mk 1 data []) a, true)
        else
          let i ← commonEdge
          let e ← n.edgeList[i]?
          if prefixLen = patternLen e.pattern then
            let subpattern := patternSub a prefixLen (patternLen a - prefixLen)
            if patternLen subpattern = 0 then
              some (n, false)
            else
              let (child, ok) ← e.child.insertRoute depth subpattern data
              some (n.setEdge i (.mk e.pattern child), ok)
          else if prefixLen < patternLen e.pattern then
            let e' := e.branch prefixLen
            if patternLen a - prefixLen = 0 then
              some (n.setEdge i (.mk e'.pattern (e'.child.setData data)), true)
            else
              let subpattern := patternSub a prefixLen (patternLen a - prefixLen)
              let (child, ok) ← e'.child.insertRoute depth subpattern data
              some (n.setEdge i (.mk e'.pattern child), ok)
          else
            some (n, false)

/-! ## Finding a route -/

/-- `url_pmap_t`: assignments, the last one first. -/
abbrev PMap := List (Str × Str)

/-- `strncmp(s, p, s.length()) == 0` on NUL terminated strings. -/
def strncmpEq : Str → Str → Bool
  | [], _ => true
  | x :: _, [] => x = 0
  | x :: xs, y :: ys => x = y && (x = 0 || strncmpEq xs ys)

/-- The loop of `match_route` over the parts: what is left of the path, and how much was taken. -/
def matchParts (aRouteLen : ℕ) :
    Pattern → Str → ℕ → PMap → Option (Option (Str × PMap))
  | [], routePtr, len, pmap => some (some (if len = aRouteLen then [] else routePtr, pmap))
  | .parameter str :: xs, routePtr, len, pmap =>
    let val := (routePtr.take (aRouteLen - len)).takeWhile (· ≠ slash)
    matchParts aRouteLen xs (routePtr.drop val.length) (len + val.length) ((str, val) :: pmap)
  | .string str :: xs, routePtr, len, pmap =>
    if strncmpEq str routePtr then
      -- the pointer moves by the length of the part: past the end if the part holds a NUL there
      if str.length ≤ routePtr.length then
        matchParts aRouteLen xs (routePtr.drop str.length) (len + str.length) pmap
      else
        none
    else
      some none
  | .terminal :: _, routePtr, _, pmap => some (some ([], ([42], routePtr) :: pmap))

/-- `edge::match_route`: the suffix that is left, and the parameters. -/
def matchRoute (pattern : Pattern) (aRoute : Str) : Option (Option (Str × PMap)) :=
  matchParts aRoute.length pattern aRoute 0 []

mutual

/-- `node::find_route`: the data, and what it assigns in the map. -/
def Node.findRoute : Node δ → Str → Option (Option δ × PMap)
  | .mk _ _ edgeList, aRoute => findRouteFrom edgeList aRoute

/-- The loop of `find_route` over the edges. -/
def findRouteFrom : List (Edge δ) → Str → Option (Option δ × PMap)
  | [], _ => some (none, [])
  | e :: es, aRoute => do
    match ← e.tryRoute aRoute with
    | some found => some found
    | none => findRouteFrom es aRoute

/-- The body of the loop: what it returns, if it returns. -/
def Edge.tryRoute : Edge δ → Str → Option (Option (Option δ × PMap))
  | .mk pattern child, aRoute => do
    match ← matchRoute pattern aRoute with
    | none => some none
    | some ([], pmap) => some (some (child.data, pmap))
    | some (c :: suffix, pmap) =>
      match ← child.findRoute (c :: suffix) with
      | (some d, pmap') => some (some (some d, pmap' ++ pmap))
      | (none, _) => some none

end

/-! ## The router -/

/-- `url_router::add_route`: the root after it, and the status. -/
def addRoute (depth : ℕ) (rootNode : Option (Node δ)) (aRoute : Str) (aData : Option δ) :
    Option (Option (Node δ) × ℤ) :=
  match convertPathToPattern aRoute with
  | none => some (rootNode, -1)
  | some pattern => do
    let (n, ok) ← (rootNode.getD .new).insertRoute depth pattern aData
    some (some n, if ok then 0 else -1)

/-- `url_router::find_route` -/
def findRoute (rootNode : Option (Node δ)) (aRoute : Str) : Option (Option δ × PMap) :=
  match rootNode with
  | none => some (none, [])
  | some n => n.findRoute aRoute

end UrlRouter

end Is2
