import Is2.Core.Paths
import Mathlib.Algebra.Ring.Nat
import Mathlib.Data.List.TakeWhile

/-!
# `get_path` and `file_h::do_get`

The path of a file is the document root, followed by what is left of the path of the request when
the route is cut off.

**Model.**  A string is the list of its characters.  An index or a position outside of a string is
undefined (`none`).  What is opened is a C string: it ends at the first NUL.

**Under the root.**  `get_path` looks for `./` anywhere, so a `..` at the end is not seen; it looks
for the route anywhere, and cuts from the start; and it cuts two characters from a route that ends
in `*`.  When the file still is under the root, is said by `pathLaw_iff`, for every route, root,
index and request.
-/

namespace Is2

namespace FileH

open Paths

/-- `STATUS_OK` -/
abbrev statusOk : ℤ := 0

/-- `STATUS_ERROR` -/
abbrev statusError : ℤ := -1

/-! ## The code -/

/-- Subtraction on `size_t`. -/
def sizeSub (a b : ℕ) : ℕ := if b ≤ a then a - b else a + 2 ^ 64 - b

/-- `std::string::substr`; a position behind the end throws. -/
def substr (s : List Char) (pos n : ℕ) : Option (List Char) :=
  if pos ≤ s.length then some ((s.drop pos).take n) else none

/-- `std::string::find` finds something. -/
def found (s t : List Char) : Bool := decide (t <:+: s)

/-- `l_route` -/
def starCut (route : List Char) : Option (List Char) := do
  let last ← route[sizeSub route.length 1]?
  if last = '*' then substr route 0 (sizeSub route.length 2) else some route

/-- The part of `get_path` behind its first check. -/
def cutPath (aoPath route urlPath : List Char) : Option (ℤ × List Char) := do
  let lRoute ← starCut route
  if lRoute = [] then some (statusOk, urlPath)
  else if found urlPath lRoute then do
    let path ← substr urlPath lRoute.length (sizeSub urlPath.length lRoute.length)
    some (statusOk, path)
  else some (statusError, aoPath)

/-- `get_path`: the status and `ao_path`. -/
def getPath (aoPath route urlPath : List Char) : Option (ℤ × List Char) :=
  if found urlPath "./".toList || found urlPath "../".toList then some (statusError, aoPath)
  else cutPath aoPath route urlPath

/-- The members of `file_h` that `do_get` reads. -/
structure Config where
  root : List Char
  index : List Char
  route : List Char

/-- What `do_get` does: `H_RESP_CLIENT_ERROR`, or `get_file` with a path. -/
inductive Resp where
  | clientError
  | getFile (path : List Char)
  deriving DecidableEq

/-- The root, or the working directory. -/
def Config.dir (h : Config) : List Char := if h.root ≠ [] then h.root else ".".toList

/-- `file_h::do_get` -/
def doGet (h : Config) (urlPath : List Char) : Option Resp := do
  let (s, path) ← getPath [] h.route urlPath
  if s ≠ statusOk then some .clientError
  else if path = [] ∨ path = "/".toList then
    if h.index ≠ [] then some (.getFile (h.dir ++ ("/".toList ++ h.index)))
    else some .clientError
  else some (.getFile (h.dir ++ path))

/-- What `open` is given. -/
def cStr (s : List Char) : List Char := s.takeWhile (· ≠ '\x00')

/-! ## What is asked for -/

/-- The route without `/*` or `*` at its end. -/
def routePrefix (route : List Char) : List Char :=
  if "/*".toList <:+ route then route.dropLast.dropLast
  else if "*".toList <:+ route then route.dropLast
  else route

/-- **The path of a file**: no index is taken outside of a string, the route is what is in front of
the path, and the file is inside of the root. -/
def PathLaw (h : Config) (urlPath : List Char) : Prop :=
  ∃ s path, getPath [] h.route urlPath = some (s, path) ∧
    (s = statusOk → urlPath = routePrefix h.route ++ path ∧
      ∀ file, doGet h urlPath = some (.getFile file) → Inside (cStr h.dir) (cStr file))

/-- `./` is in the path of the request. -/
def Traverses (urlPath : List Char) : Prop := ['.', '/'] <:+: urlPath

/-- What `get_path` cuts off for a route that is not empty. -/
def cutRoute (route : List Char) : List Char :=
  if route.getLast? = some '*' then route.take (sizeSub route.length 2) else route

/-- There is a slash in front of a `*` at the end. -/
def StarOk (route : List Char) : Prop := "*".toList <:+ route → "/*".toList <:+ route

/-- A root that holds a NUL ends there.  Behind the route, there is the index, which leads back
below the root; or something that is safe behind the root. -/
def RestOk (h : Config) (rest : List Char) : Prop :=
  '\x00' ∈ h.dir ∨
    if rest = [] ∨ rest = "/".toList then h.index ≠ [] → Returns h.dir (cStr h.index)
    else Stays h.dir (cStr rest)

/-- The request is refused; or the route ends as it should and is in front of what is behind it. -/
def PathOk (h : Config) (urlPath : List Char) : Prop :=
  Traverses urlPath ∨
    h.route ≠ [] ∧ (¬ cutRoute h.route <:+: urlPath ∨
      StarOk h.route ∧ ∃ rest, urlPath = routePrefix h.route ++ rest ∧ RestOk h rest)

/-! ## The route -/

variable {h : Config} {route urlPath : List Char}

lemma found_iff (s t : List Char) : found s t = true ↔ t <:+: s := decide_eq_true_iff

lemma getPath_of_traverses (ht : Traverses urlPath) (aoPath route : List Char) :
    getPath aoPath route urlPath = some (statusError, aoPath) := by
  have hfound : found urlPath "./".toList = true := (found_iff _ _).mpr ht
  rw [getPath, hfound]
  rfl

/-- There is `./` in `../`. -/
lemma getPath_of_not_traverses (ht : ¬ Traverses urlPath) (aoPath route : List Char) :
    getPath aoPath route urlPath = cutPath aoPath route urlPath := by
  have hone : found urlPath "./".toList = false := decide_eq_false ht
  have hsub : "./".toList <:+: "../".toList := ⟨['.'], [], rfl⟩
  have htwo : found urlPath "../".toList = false := decide_eq_false fun h => ht (hsub.trans h)
  rw [getPath, hone, htwo]
  rfl

/-- The route is not empty: there is a last character. -/
lemma getElem_last (hroute : route ≠ []) : route[sizeSub route.length 1]? = route.getLast? := by
  have hpos : 1 ≤ route.length := List.length_pos_iff.mpr hroute
  rw [sizeSub, if_pos hpos, List.getLast?_eq_getElem?]

lemma starCut_eq (hroute : route ≠ []) : starCut route = some (cutRoute route) := by
  obtain ⟨last, hlast⟩ := Option.ne_none_iff_exists'.mp (mt List.getLast?_eq_none_iff.mp hroute)
  rw [starCut, getElem_last hroute, hlast, Option.bind_eq_bind, Option.bind_some]
  by_cases hstar : last = '*'
  · simp [cutRoute, hlast, hstar, substr]
  · simp [cutRoute, hlast, hstar]

/-- What is left is the path behind as many characters as the route has. -/
lemma getPath_eq (ht : ¬ Traverses urlPath) (hroute : route ≠ []) (aoPath : List Char) :
    getPath aoPath route urlPath =
      if cutRoute route <:+: urlPath then some (statusOk, urlPath.drop (cutRoute route).length)
      else some (statusError, aoPath) := by
  rw [getPath_of_not_traverses ht, cutPath, starCut_eq hroute, Option.bind_eq_bind,
    Option.bind_some]
  by_cases hnil : cutRoute route = []
  · simp [hnil]
  rw [if_neg hnil]
  by_cases hfound : cutRoute route <:+: urlPath
  · have hle := hfound.length_le
    rw [if_pos ((found_iff _ _).mpr hfound), if_pos hfound, substr, if_pos hle, sizeSub, if_pos hle,
      List.take_of_length_le (List.length_drop.le)]
    rfl
  · rw [if_neg (mt (found_iff _ _).mp hfound), if_neg hfound]

/-- An empty route has no last character. -/
lemma getPath_nil (ht : ¬ Traverses urlPath) (aoPath : List Char) :
    getPath aoPath [] urlPath = none := by
  rw [getPath_of_not_traverses ht]
  rfl

/-- A star at the end. -/
lemma getLast_eq_star_iff : route.getLast? = some '*' ↔ "*".toList <:+ route := by
  constructor
  · intro h
    obtain ⟨r, rfl⟩ := List.getLast?_eq_some_iff.mp h
    exact List.suffix_append _ _
  · rintro ⟨r, rfl⟩
    exact List.getLast?_concat

/-- What is cut off is the route, if there is a slash in front of its star. -/
lemma cutRoute_eq (h : StarOk route) : cutRoute route = routePrefix route := by
  by_cases hstar : "*".toList <:+ route
  · have hcut := getLast_eq_star_iff.mpr hstar
    rw [cutRoute, if_pos hcut, routePrefix, if_pos (h hstar)]
    obtain ⟨r, rfl⟩ := h hstar
    simp [sizeSub, List.take_left']
  · have hcut := mt getLast_eq_star_iff.mp hstar
    have hslash : ¬ "/*".toList <:+ route := fun hs =>
      hstar ((List.suffix_append "/".toList "*".toList).trans hs)
    rw [cutRoute, if_neg hcut, routePrefix, if_neg hslash, if_neg hstar]

/-- Otherwise it has another length. -/
lemma length_cutRoute_ne (h : ¬ StarOk route) :
    (cutRoute route).length ≠ (routePrefix route).length := by
  obtain ⟨hstar, hslash⟩ := Classical.not_imp.mp h
  have hcut := getLast_eq_star_iff.mpr hstar
  have hpos : 0 < route.length := by
    obtain ⟨r, rfl⟩ := hstar
    simp
  rw [cutRoute, if_pos hcut, routePrefix, if_neg hslash, if_pos hstar, List.length_take,
    List.length_dropLast, sizeSub]
  split_ifs
  · omega
  · omega

/-! ## The file -/

lemma cStr_eq_self {s : List Char} (hs : '\x00' ∉ s) : cStr s = s := by
  refine List.takeWhile_eq_self_iff.mpr fun c hc => decide_eq_true ?_
  rintro rfl
  exact hs hc

lemma cStr_append_of_notMem {s : List Char} (hs : '\x00' ∉ s) (t : List Char) :
    cStr (s ++ t) = s ++ cStr t := by
  refine List.takeWhile_append_of_pos fun c hc => decide_eq_true ?_
  rintro rfl
  exact hs hc

/-- Behind a NUL, nothing counts. -/
lemma cStr_append_of_mem {s : List Char} (hs : '\x00' ∈ s) (t : List Char) :
    cStr (s ++ t) = cStr s := by
  obtain ⟨a, b, rfl, ha⟩ := List.eq_append_cons_of_mem hs
  rw [List.append_assoc, cStr_append_of_notMem ha, cStr_append_of_notMem ha]
  rfl

lemma dir_ne_nil (h : Config) : h.dir ≠ [] := by
  unfold Config.dir
  split_ifs with hroot
  · exact hroot
  · decide

/-- What is behind the root, is inside of it. -/
lemma inside_dir_iff {rest : List Char} (ht : ¬ Traverses rest) :
    Inside (cStr h.dir) (cStr (h.dir ++ rest)) ↔
      '\x00' ∈ h.dir ∨ Stays h.dir (cStr rest) := by
  by_cases hnul : '\x00' ∈ h.dir
  · rw [cStr_append_of_mem hnul]
    simp only [hnul, true_or, iff_true]
    exact fun cwd => List.prefix_rfl
  · have hc : ¬ ['.', '/'] <:+: cStr rest := fun h' =>
      ht (h'.trans (List.takeWhile_prefix _).isInfix)
    rw [cStr_append_of_notMem hnul, cStr_eq_self hnul, inside_append_iff (dir_ne_nil h) hc]
    simp [hnul]

/-- So is the index, behind a slash. -/
lemma inside_index_iff (index : List Char) :
    Inside (cStr h.dir) (cStr (h.dir ++ ("/".toList ++ index))) ↔
      '\x00' ∈ h.dir ∨ Returns h.dir (cStr index) := by
  by_cases hnul : '\x00' ∈ h.dir
  · rw [cStr_append_of_mem hnul]
    simp only [hnul, true_or, iff_true]
    exact fun cwd => List.prefix_rfl
  · have hslash : cStr ("/".toList ++ index) = '/' :: cStr index := rfl
    rw [cStr_append_of_notMem hnul, cStr_eq_self hnul, hslash, inside_behind_iff (dir_ne_nil h)]
    simp [hnul]

/-- The file that `do_get` opens for what is behind the route. -/
lemma doGet_inside_iff {rest : List Char}
    (hget : getPath [] h.route urlPath = some (statusOk, rest)) (ht : ¬ Traverses rest) :
    (∀ file, doGet h urlPath = some (.getFile file) → Inside (cStr h.dir) (cStr file)) ↔
      RestOk h rest := by
  have hok : ¬ statusOk ≠ statusOk := fun h' => h' rfl
  rw [doGet, hget, Option.bind_eq_bind, Option.bind_some, RestOk]
  simp only [if_neg hok]
  split_ifs with hslash hindex
  · simp [hindex, ← inside_index_iff]
  · simp [hindex]
  · simp [← inside_dir_iff ht]

/-- **A file is under the root exactly if** the request and the configuration are as they should. -/
theorem pathLaw_iff (h : Config) (urlPath : List Char) : PathLaw h urlPath ↔ PathOk h urlPath := by
  by_cases ht : Traverses urlPath
  · refine iff_of_true ⟨_, _, getPath_of_traverses ht _ _, ?_⟩ (.inl ht)
    exact fun hs => absurd hs (by decide)
  rw [PathOk, or_iff_right ht]
  by_cases hroute : h.route = []
  · rw [PathLaw, hroute, getPath_nil ht]
    simp
  rw [and_iff_right hroute]
  by_cases hfound : cutRoute h.route <:+: urlPath
  · have hget := getPath_eq ht hroute []
    rw [if_pos hfound] at hget
    have hrest : ¬ Traverses (urlPath.drop (cutRoute h.route).length) := fun h' =>
      ht (h'.trans (List.drop_suffix _ _).isInfix)
    rw [or_iff_right (not_not.mpr hfound)]
    constructor
    · rintro ⟨s, path, hpath, hlaw⟩
      obtain ⟨rfl, rfl⟩ := Prod.mk.inj (Option.some.inj (hget.symm.trans hpath))
      obtain ⟨hsplit, hinside⟩ := hlaw rfl
      refine ⟨?_, _, hsplit, (doGet_inside_iff hget hrest).mp hinside⟩
      by_contra hstar
      have hlen := congrArg List.length hsplit
      have hle := hfound.length_le
      rw [List.length_append, List.length_drop] at hlen
      have := length_cutRoute_ne hstar
      omega
    · rintro ⟨hstar, rest, hsplit, hok⟩
      have hdrop : urlPath.drop (cutRoute h.route).length = rest := by
        rw [cutRoute_eq hstar, hsplit, List.drop_left]
      rw [hdrop] at hget hrest
      exact ⟨_, _, hget, fun _ => ⟨hsplit, (doGet_inside_iff hget hrest).mpr hok⟩⟩
  · have hget := getPath_eq ht hroute []
    rw [if_neg hfound] at hget
    refine iff_of_true ⟨_, _, hget, ?_⟩ (.inl hfound)
    exact fun hs => absurd hs (by decide)

/-- Files of a site, as in the tests. -/
def site : Config := ⟨"/srv/is2".toList, "index.html".toList, "/is2_www/*".toList⟩

example : doGet site "/is2_www/wang.py".toList = some (.getFile "/srv/is2/wang.py".toList) := by
  decide +kernel

/-- **The directory above the root is opened**, and a route is cut off where it is not. -/
theorem above_root_opened :
    doGet site "/is2_www/..".toList = some (.getFile "/srv/is2/..".toList) ∧
      ¬ PathLaw site "/is2_www/..".toList ∧
      getPath [] site.route "/a/is2_www/b".toList = some (statusOk, "ww/b".toList) ∧
      ¬ PathLaw site "/a/is2_www/b".toList := by
  have hup : doGet site "/is2_www/..".toList = some (.getFile "/srv/is2/..".toList) := by
    decide +kernel
  have hcut : getPath [] site.route "/a/is2_www/b".toList = some (statusOk, "ww/b".toList) := by
    decide +kernel
  refine ⟨hup, ?_, hcut, ?_⟩
  · rintro ⟨s, path, hget, hlaw⟩
    have hs : getPath [] site.route "/is2_www/..".toList = some (statusOk, "/..".toList) := by
      decide +kernel
    obtain ⟨rfl, rfl⟩ := Prod.mk.inj (Option.some.inj (hs.symm.trans hget))
    exact absurd ((hlaw rfl).2 _ hup []) (by decide +kernel)
  · rintro ⟨s, path, hget, hlaw⟩
    obtain ⟨rfl, rfl⟩ := Prod.mk.inj (Option.some.inj (hcut.symm.trans hget))
    exact absurd (hlaw rfl).1 (by decide +kernel)

end FileH

end Is2
