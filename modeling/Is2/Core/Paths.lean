import Mathlib.Data.List.Basic
import Mathlib.Data.List.Infix

/-!
# Paths

Where a path leads to in a tree of directories, without looking at the tree: `..` goes up, and
goes nowhere from the top.  A path is *inside* of another one if it leads to a place at or below
the place of the other one, whatever the working directory is.

A text without `./` has no `.` and no `..` but as its last name.  So a path that is continued with
such a text stays inside unless the first name of the text is glued to a name of the path, or
nothing but a `..` is left of it: `inside_append_iff`.

Behind a slash any text comes to some levels up and some names down (`net`).  It stays inside if the
names down are those of the levels that it went up: `inside_behind_iff`.
-/

namespace Is2

namespace Paths

/-- The names between the slashes. -/
def names (path : List Char) : List (List Char) := path.splitOn '/'

/-- The directory that a name leads to. -/
def enter (dir : List (List Char)) (name : List Char) : List (List Char) :=
  if name = [] ∨ name = ['.'] then dir
  else if name = ['.', '.'] then dir.dropLast
  else dir ++ [name]

/-- One name after the other. -/
def walk (dir : List (List Char)) (ns : List (List Char)) : List (List Char) := ns.foldl enter dir

/-- Where a path starts: at the top, or in the working directory. -/
def start (cwd : List (List Char)) (path : List Char) : List (List Char) :=
  if path.head? = some '/' then [] else cwd

/-- **The place that a path leads to.** -/
def resolve (cwd : List (List Char)) (path : List Char) : List (List Char) :=
  walk (start cwd path) (names path)

/-- The path leads to the place of the other one, or to one below it. -/
def Inside (root path : List Char) : Prop := ∀ cwd, resolve cwd root <+: resolve cwd path

/-- The path leads to the top. -/
def IsTop (path : List Char) : Prop := path.head? = some '/' ∧ walk [] (names path) = []

instance (path : List Char) : Decidable (IsTop path) := inferInstanceAs (Decidable (_ ∧ _))

/-- Slashes, and `..` behind them. -/
def Up (q : List Char) : Prop := q.dropWhile (· = '/') = ['.', '.']

instance (q : List Char) : Decidable (Up q) := inferInstanceAs (Decidable (_ = _))

/-- The last name of a path. -/
def base (path : List Char) : List Char := (names path).getLastD []

/-- The other names. -/
def folder (path : List Char) : List (List Char) := (names path).dropLast

/-- A last name that does not lead below the directory that it is in. -/
def IsDots (b : List Char) : Prop := b = [] ∨ b = ['.'] ∨ b = ['.', '.']

instance (b : List Char) : Decidable (IsDots b) := inferInstanceAs (Decidable (_ ∨ _))

/-- What comes behind a last name goes up from it. -/
def Escapes (b q : List Char) : Prop :=
  Up q ∧ (q.head? = some '/' ∨ b = []) ∨ b = ['.'] ∧ q = ['.']

instance (b q : List Char) : Decidable (Escapes b q) := inferInstanceAs (Decidable (_ ∨ _))

/-- **When it is safe to continue a path**: a name of the path is not continued, and nothing goes up
from the path, unless it leads to the top. -/
def Stays (root q : List Char) : Prop :=
  (q = [] ∨ q.head? = some '/' ∨ IsDots (base root)) ∧ (Escapes (base root) q → IsTop root)

instance (root q : List Char) : Decidable (Stays root q) := inferInstanceAs (Decidable (_ ∧ _))

/-- What names come to: so many levels up, and then these names down. -/
structure Net where
  up : ℕ
  down : List (List Char)
deriving DecidableEq

/-- One name more. -/
def Net.enter (n : Net) (name : List Char) : Net :=
  if name = [] ∨ name = ['.'] then n
  else if name = ['.', '.'] then
    if n.down = [] then { n with up := n.up + 1 } else { n with down := n.down.dropLast }
  else { n with down := n.down ++ [name] }

def net (ns : List (List Char)) : Net := ns.foldl Net.enter ⟨0, []⟩

/-- **When a text leads back below a path**: it goes up by names of the path only, unless the path
starts at the top, and enters these names again. -/
def Returns (root q : List Char) : Prop :=
  let place := (net (names root)).down
  let way := net (names q)
  (way.up ≤ place.length ∨ root.head? = some '/') ∧
    place.drop (place.length - way.up) <+: way.down

instance (root q : List Char) : Decidable (Returns root q) := inferInstanceAs (Decidable (_ ∧ _))

/-! ## Names -/

variable {dir : List (List Char)} {q : List Char}

lemma names_of_no_slash {s : List Char} (h : '/' ∉ s) : names s = [s] :=
  List.splitOn_eq_singleton h

lemma names_slash (s t : List Char) : names (s ++ '/' :: t) = names s ++ names t :=
  List.splitOn_append_cons_self s t

lemma names_cons_slash (t : List Char) : names ('/' :: t) = [] :: names t :=
  names_slash [] t

lemma names_first {n : List Char} (h : '/' ∉ n) (t : List Char) :
    names (n ++ '/' :: t) = n :: names t := by
  rw [names_slash, names_of_no_slash h, List.singleton_append]

/-- The last slash of a path. -/
lemma exists_last_slash {s : List Char} (h : '/' ∈ s) :
    ∃ d b, s = d ++ '/' :: b ∧ '/' ∉ b := by
  obtain ⟨b, d, hs, hb⟩ := List.eq_append_cons_of_mem (List.mem_reverse.mpr h)
  refine ⟨d.reverse, b.reverse, ?_, by simpa using hb⟩
  have := congrArg List.reverse hs
  simpa using this

/-- The last name is the only one that is continued. -/
lemma names_append (s t : List Char) : names (s ++ t) = folder s ++ names (base s ++ t) := by
  by_cases h : '/' ∈ s
  · obtain ⟨d, b, rfl, hb⟩ := exists_last_slash h
    simp [folder, base, names_slash, names_of_no_slash hb]
  · simp [folder, base, names_of_no_slash h]

lemma names_eq (s : List Char) : names s = folder s ++ [base s] := by
  have hne : names s ≠ [] := List.splitOn_ne_nil _ _
  rw [folder, base, List.getLastD_eq_getLast?, List.getLast?_eq_some_getLast hne]
  exact (List.dropLast_append_getLast hne).symm

lemma slash_notMem_base (s : List Char) : '/' ∉ base s := by
  by_cases h : '/' ∈ s
  · obtain ⟨d, b, rfl, hb⟩ := exists_last_slash h
    simpa [base, names_slash, names_of_no_slash hb] using hb
  · simpa [base, names_of_no_slash h] using h

lemma walk_append (dir : List (List Char)) (ns ms : List (List Char)) :
    walk dir (ns ++ ms) = walk (walk dir ns) ms := List.foldl_append

lemma walk_cons (dir : List (List Char)) (n : List Char) (ns : List (List Char)) :
    walk dir (n :: ns) = walk (enter dir n) ns := rfl

lemma enter_of_not_dots {b : List Char} (h : ¬ IsDots b) : enter dir b = dir ++ [b] := by
  simp only [IsDots, not_or] at h
  simp [enter, h]

/-! ## Going up -/

lemma up_cons_slash (q : List Char) : Up ('/' :: q) ↔ Up q := by
  simp [Up]

lemma up_of_head_ne (h : q.head? ≠ some '/') : Up q ↔ q = ['.', '.'] := by
  cases q with
  | nil => simp [Up]
  | cons c q =>
      have hc : c ≠ '/' := by simpa using h
      simp [Up, hc]

/-- From nothing but slashes and `..`, the way goes up. -/
lemma walk_of_up (h : Up q) (dir : List (List Char)) : walk dir (names q) = dir.dropLast := by
  induction q with
  | nil => cases h
  | cons c q ih =>
      by_cases hc : c = '/'
      · subst hc
        rw [names_cons_slash, walk_cons]
        exact ih ((up_cons_slash q).mp h)
      · obtain h' := (up_of_head_ne (by simpa using hc)).mp h
        rw [h']
        rfl

/-- A name in front of a slash is not `.` and not `..`. -/
lemma not_dots_of_front {n t : List Char} (h : ¬ ['.', '/'] <:+: n ++ '/' :: t) (hn : n ≠ []) :
    ¬ IsDots n := by
  rintro (rfl | rfl | rfl)
  · exact hn rfl
  · exact h ⟨[], t, rfl⟩
  · exact h ⟨['.'], t, rfl⟩

lemma no_dot_slash_behind {n t : List Char} (h : ¬ ['.', '/'] <:+: n ++ '/' :: t) :
    ¬ ['.', '/'] <:+: t :=
  fun ht => h (ht.trans ⟨n ++ ['/'], [], by simp⟩)

/-- **Any other text without `./` stays below.** -/
lemma prefix_walk (hup : ¬ Up q) (h : ¬ ['.', '/'] <:+: q) (dir : List (List Char)) :
    dir <+: walk dir (names q) := by
  induction hlen : q.length using Nat.strong_induction_on generalizing q dir with
  | _ len ih =>
      by_cases hslash : '/' ∈ q
      · obtain ⟨n, t, rfl, hn⟩ := List.eq_append_cons_of_mem hslash
        have ht := no_dot_slash_behind h
        have hlt : t.length < len := by
          rw [← hlen, List.length_append, List.length_cons]
          omega
        rw [names_first hn, walk_cons]
        by_cases hnil : n = []
        · subst hnil
          exact ih _ hlt (fun h' => hup ((up_cons_slash t).mpr h')) ht dir rfl
        · rw [enter_of_not_dots (not_dots_of_front h hnil)]
          by_cases htup : Up t
          · rw [walk_of_up htup, List.dropLast_concat]
          · exact (List.prefix_append dir [n]).trans (ih _ hlt htup ht _ rfl)
      · rw [names_of_no_slash hslash]
        by_cases hdots : IsDots q
        · obtain rfl | rfl | rfl := hdots
          · exact List.prefix_rfl
          · exact List.prefix_rfl
          · exact absurd rfl hup
        · change dir <+: enter dir q
          rw [enter_of_not_dots hdots]
          exact List.prefix_append _ _

/-! ## Continuing a path -/

/-- The last name has no slash. -/
lemma walk_continued {b : List Char} (hb : '/' ∉ b) (hq : q.head? = some '/')
    (dir : List (List Char)) :
    walk dir (names (b ++ q)) = walk (enter dir b) (names q) := by
  obtain ⟨t, rfl⟩ := List.head?_eq_some_iff.mp hq
  rw [names_first hb, names_cons_slash]
  rfl

/-- A text behind a place stays there unless it goes up. -/
lemma prefix_behind_iff (h : ¬ ['.', '/'] <:+: q) (dir : List (List Char)) :
    dir <+: walk dir (names q) ↔ (Up q → dir = []) := by
  by_cases hup : Up q
  · rw [walk_of_up hup]
    simp only [hup, true_imp_iff]
    constructor
    · intro hpre
      have hlen := hpre.length_le
      rw [List.length_dropLast] at hlen
      exact List.length_eq_zero_iff.mp (by omega)
    · rintro rfl
      exact List.prefix_rfl
  · simp only [hup, false_imp_iff, iff_true]
    exact prefix_walk hup h dir

/-- Where a last name is continued, there is no new slash. -/
lemma no_dot_slash_continued {b : List Char} (hb : '/' ∉ b) (hhead : q.head? ≠ some '/')
    (h : ¬ ['.', '/'] <:+: q) : ¬ ['.', '/'] <:+: b ++ q := by
  induction b with
  | nil => exact h
  | cons c b ih =>
      have hmem : '/' ∉ b := fun h' => hb (List.mem_cons_of_mem c h')
      rw [List.cons_append, List.infix_cons_iff, not_or]
      refine ⟨fun hpre => ?_, ih hmem⟩
      obtain ⟨-, hslash⟩ := List.cons_prefix_cons.mp hpre
      cases b with
      | nil =>
          obtain ⟨t, rfl⟩ := hslash
          exact hhead rfl
      | cons d b =>
          obtain ⟨rfl, -⟩ := List.cons_prefix_cons.mp hslash
          exact hmem List.mem_cons_self

/-- A longer name is no `..`, unless a dot follows a dot. -/
lemma not_dots_continued {b n : List Char} (hdots : ¬ IsDots b) (hn : n ≠ []) :
    ¬ IsDots (b ++ n) := by
  cases b with
  | nil => exact absurd (.inl rfl) hdots
  | cons c b =>
      cases n with
      | nil => exact absurd rfl hn
      | cons d n =>
          rintro (h | h | h)
          · cases h
          · simp at h
          · cases b with
            | nil =>
                cases h
                exact hdots (.inr (.inl rfl))
            | cons e b => simp at h

/-- A name that is continued is another one. -/
lemma not_prefix_continued {b : List Char} (hdots : ¬ IsDots b) (hb : '/' ∉ b) (hnil : q ≠ [])
    (hhead : q.head? ≠ some '/') (h : ¬ ['.', '/'] <:+: q) (dir : List (List Char)) :
    ¬ dir ++ [b] <+: walk dir (names (b ++ q)) := by
  have hother : ∀ {n}, n ≠ [] → ∀ {place}, dir ++ [b ++ n] <+: place → ¬ dir ++ [b] <+: place := by
    intro n hn place hlong hshort
    have heq := (List.prefix_of_prefix_length_le hshort hlong (by simp)).eq_of_length (by simp)
    simp [hn] at heq
  by_cases hslash : '/' ∈ q
  · obtain ⟨n, t, rfl, hn⟩ := List.eq_append_cons_of_mem hslash
    have hne : n ≠ [] := by
      rintro rfl
      exact hhead rfl
    have hmem : '/' ∉ b ++ n := by simp [hb, hn]
    rw [← List.append_assoc, names_first hmem, walk_cons,
      enter_of_not_dots (not_dots_continued hdots hne)]
    by_cases hup : Up t
    · rw [walk_of_up hup, List.dropLast_concat]
      intro hpre
      have hlen := hpre.length_le
      rw [List.length_append, List.length_singleton] at hlen
      omega
    · exact hother hne (prefix_walk hup (no_dot_slash_behind h) _)
  · have hmem : '/' ∉ b ++ q := by simp [hb, hslash]
    rw [names_of_no_slash hmem]
    change ¬ dir ++ [b] <+: enter dir (b ++ q)
    rw [enter_of_not_dots (not_dots_continued hdots hnil)]
    exact hother hnil List.prefix_rfl

/-- What is behind a last name stays at the place of it. -/
lemma prefix_continued_iff {b : List Char} (hb : '/' ∉ b) (h : ¬ ['.', '/'] <:+: q)
    (dir : List (List Char)) :
    enter dir b <+: walk dir (names (b ++ q)) ↔
      (q = [] ∨ q.head? = some '/' ∨ IsDots b) ∧ (Escapes b q → enter dir b = []) := by
  by_cases hhead : q.head? = some '/'
  · have hne : q ≠ ['.'] := by
      rintro rfl
      simp at hhead
    rw [walk_continued hb hhead, prefix_behind_iff h]
    simp [Escapes, hhead, hne]
  by_cases hnil : q = []
  · subst hnil
    rw [List.append_nil, names_of_no_slash hb]
    simp [Escapes, Up, walk]
  by_cases hdots : IsDots b
  · have hcond : q = [] ∨ q.head? = some '/' ∨ IsDots b := .inr (.inr hdots)
    rw [and_iff_right hcond]
    obtain rfl | rfl | rfl := hdots
    · change dir <+: _ ↔ (_ → dir = [])
      rw [List.nil_append, prefix_behind_iff h]
      simp [Escapes]
    · change dir <+: _ ↔ (_ → dir = [])
      rw [prefix_behind_iff (no_dot_slash_continued hb hhead h), up_of_head_ne (by simp)]
      simp [Escapes, hhead]
    · change dir.dropLast <+: _ ↔ _
      have hup : ¬ Up (['.', '.'] ++ q) := by
        rw [up_of_head_ne (by simp)]
        simpa using hnil
      have hstays := prefix_walk hup (no_dot_slash_continued hb hhead h) dir
      simpa [Escapes, hhead] using (List.dropLast_prefix dir).trans hstays
  · have hcond : ¬ (q = [] ∨ q.head? = some '/' ∨ IsDots b) := by
      simp [hnil, hhead, hdots]
    rw [enter_of_not_dots hdots]
    simp only [hcond, false_and, iff_false]
    exact not_prefix_continued hdots hb hnil hhead h dir

/-! ## The top -/

lemma length_enter_le (dir : List (List Char)) (n : List Char) :
    dir.length ≤ (enter dir n).length + 1 := by
  unfold enter
  split_ifs
  · omega
  · rw [List.length_dropLast]
    omega
  · rw [List.length_append]
    omega

/-- Each name goes up at most once. -/
lemma length_le_walk (dir : List (List Char)) (ns : List (List Char)) :
    dir.length ≤ (walk dir ns).length + ns.length := by
  induction ns generalizing dir with
  | nil => exact le_rfl
  | cons n ns ih =>
      have hstep := length_enter_le dir n
      have hrest := ih (enter dir n)
      rw [walk_cons, List.length_cons]
      omega

/-- A path that leads to the top from everywhere starts there. -/
lemma isTop_iff (path : List Char) : IsTop path ↔ ∀ cwd, resolve cwd path = [] := by
  constructor
  · rintro ⟨hhead, hwalk⟩ cwd
    rw [resolve, start, if_pos hhead, hwalk]
  · intro h
    have hhead : path.head? = some '/' := by
      by_contra hhead
      have hdeep := h (List.replicate ((names path).length + 1) [])
      rw [resolve, start, if_neg hhead] at hdeep
      have hlen := length_le_walk (List.replicate ((names path).length + 1) []) (names path)
      rw [hdeep, List.length_replicate, List.length_nil] at hlen
      omega
    have hwalk := h []
    rw [resolve, start, if_pos hhead] at hwalk
    exact ⟨hhead, hwalk⟩

/-- **A path that is continued without `./`** stays inside exactly if it is safe to continue it. -/
theorem inside_append_iff {root : List Char} (hroot : root ≠ []) (h : ¬ ['.', '/'] <:+: q) :
    Inside root (root ++ q) ↔ Stays root q := by
  have hplace : ∀ cwd, resolve cwd root <+: resolve cwd (root ++ q) ↔
      (q = [] ∨ q.head? = some '/' ∨ IsDots (base root)) ∧
        (Escapes (base root) q → resolve cwd root = []) := by
    intro cwd
    have hstart : start cwd (root ++ q) = start cwd root := by
      rw [start, List.head?_append_of_ne_nil _ hroot, start]
    have hself : resolve cwd root = enter (walk (start cwd root) (folder root)) (base root) := by
      rw [resolve, names_eq, walk_append]
      rfl
    rw [hself, resolve, hstart, names_append, walk_append]
    exact prefix_continued_iff (slash_notMem_base root) h _
  simp only [Inside, hplace, Stays, isTop_iff]
  constructor
  · intro hall
    exact ⟨(hall []).1, fun hesc cwd => (hall cwd).2 hesc⟩
  · rintro ⟨hglue, hesc⟩ cwd
    exact ⟨hglue, fun h' => hesc h' cwd⟩

/-! ## Up and down again -/

/-- From any place, names go as they come to. -/
lemma walk_eq_net (dir ns : List (List Char)) :
    walk dir ns = dir.take (dir.length - (net ns).up) ++ (net ns).down := by
  induction ns using List.reverseRecOn with
  | nil => simp [walk, net]
  | append_singleton ns n ih =>
      have hnet : net (ns ++ [n]) = (net ns).enter n := List.foldl_concat _ _ _ _
      have hwalk : walk dir (ns ++ [n]) = enter (walk dir ns) n := List.foldl_concat _ _ _ _
      rw [hnet, hwalk, ih, enter, Net.enter]
      split_ifs with hsame hup hnil
      · rfl
      · rw [hnil, List.append_nil, List.append_nil, List.dropLast_eq_take, List.take_take,
          List.length_take]
        congr 1
        dsimp only
        omega
      · rw [List.dropLast_append_of_ne_nil hnil]
      · rw [List.append_assoc]

/-- From a place, the way leads back below it if it enters the names that it left. -/
lemma prefix_walk_iff (dir ns : List (List Char)) :
    dir <+: walk dir ns ↔ dir.drop (dir.length - (net ns).up) <+: (net ns).down := by
  rw [walk_eq_net]
  nth_rewrite 1 [← List.take_append_drop (dir.length - (net ns).up) dir]
  exact List.prefix_append_right_inj _

/-- **A path that is continued behind a slash** stays inside exactly if the text leads back. -/
theorem inside_behind_iff {root : List Char} (hroot : root ≠ []) (q : List Char) :
    Inside root (root ++ '/' :: q) ↔ Returns root q := by
  have hplace : ∀ cwd, resolve cwd (root ++ '/' :: q) = walk (resolve cwd root) (names q) := by
    intro cwd
    have hstart : start cwd (root ++ '/' :: q) = start cwd root := by
      rw [start, List.head?_append_of_ne_nil _ hroot, start]
    rw [resolve, hstart, names_slash, walk_append]
    rfl
  simp only [Inside, hplace, prefix_walk_iff, Returns]
  by_cases htop : root.head? = some '/'
  · have hself : ∀ cwd, resolve cwd root = (net (names root)).down := by
      intro cwd
      rw [resolve, start, if_pos htop, walk_eq_net]
      simp
    simp [hself, htop]
  have hself : ∀ cwd, resolve cwd root =
      cwd.take (cwd.length - (net (names root)).up) ++ (net (names root)).down := by
    intro cwd
    rw [resolve, start, if_neg htop, walk_eq_net]
  simp only [hself, htop, or_false]
  generalize net (names root) = place
  generalize net (names q) = way
  constructor
  · intro hall
    have hle : way.up ≤ place.down.length := by
      by_contra hlt
      -- a working directory whose names the text does not know
      obtain ⟨x, hx⟩ : ∃ x, way.down.head? ≠ some x := by
        by_cases h : way.down.head? = some []
        · exact ⟨['a'], by simp [h]⟩
        · exact ⟨[], h⟩
      have hcwd := hall (List.replicate (place.up + way.up) x)
      rw [List.length_append, List.length_take, List.length_replicate, List.drop_append_of_le_length
        (by simp; omega), List.take_replicate, List.drop_replicate] at hcwd
      obtain ⟨m, hm⟩ := Nat.exists_eq_succ_of_ne_zero (n := min (place.up + way.up - place.up)
        (place.up + way.up) - (min (place.up + way.up - place.up) (place.up + way.up) +
          place.down.length - way.up)) (by omega)
      rw [hm, List.replicate_succ, List.cons_append] at hcwd
      obtain ⟨rest, hrest⟩ := hcwd
      exact hx (by rw [← hrest]; rfl)
    refine ⟨hle, ?_⟩
    have hcwd := hall []
    simpa using hcwd
  · rintro ⟨hle, hback⟩ cwd
    rw [List.length_append, Nat.add_sub_assoc hle, List.drop_length_add_append]
    exact hback

end Paths

end Is2
