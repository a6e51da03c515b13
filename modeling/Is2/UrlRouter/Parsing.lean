import Is2.UrlRouter.Model

/-!
# Which routes are parsed?

`convert_path_to_pattern` reads a route up to its first `*`.  The rules for what it reads are those
of its comments: a parameter begins with `/<`, ends with `>` in front of a slash or at the end, and
does not hold another one.

A parameter that is still open at the end of the route is refused behind the loop.  The `*` leaves
the loop with the type of the terminal, so the same check passes for a parameter that is open there
(`parseLaw_iff`): `/<a*` is read as the parameter `<a>` and the terminal.
-/

namespace Is2

namespace UrlRouter

/-! ## The rules -/

/-- What `pattern_str` prints for a part. -/
def Part.print : Part → Str
  | .parameter str => 60 :: (str ++ [62])
  | .string str => str
  | .terminal => [42]

/-- `pattern_str` -/
def patternStr (a : Pattern) : Str := a.flatMap Part.print

/-- A route up to its first `*`. -/
def cutTerminal (s : Str) : Str := s.takeWhile (· ≠ 42) ++ if 42 ∈ s then [42] else []

/-- A parameter is open behind `u`: the last bracket is `<`. -/
def Open (u : Str) : Prop := (u.filter fun c => c = 60 ∨ c = 62).getLast? = some 60

instance (u : Str) : Decidable (Open u) := inferInstanceAs (Decidable (_ = _))

/-- **The brackets are in order** in what follows `u`: a parameter begins outside of another one and
behind a slash, and an open one ends in front of a slash or at the end. -/
structure BracketsOk (u s : Str) : Prop where
  begins : ∀ a b, s = a ++ 60 :: b → ¬ Open (u ++ a) ∧ (u ++ a).getLast? = some slash
  ends : ∀ a b, s = a ++ 62 :: b → Open (u ++ a) ∧ (b = [] ∨ b.head? = some slash)

/-- What is left of a route to be read. -/
def normalRoute (route : Str) : Str := cutTerminal (sanitizePath route)

/-- **The law of `convert_path_to_pattern`**: it succeeds on the routes whose brackets are in order
and whose parameters are closed, and what it reads is the route. -/
def ParseLaw (route : Str) : Prop :=
  ((convertPathToPattern route).isSome ↔
    BracketsOk [] (normalRoute route) ∧ ¬ Open (normalRoute route)) ∧
  ∀ pattern, convertPathToPattern route = some pattern → patternStr pattern = normalRoute route

/-! ## One character at a time -/

section Steps

variable {u s : Str} {c : UInt8}

lemma cutTerminal_star (s : Str) : cutTerminal (42 :: s) = [42] := by simp [cutTerminal]

lemma cutTerminal_cons (hc : c ≠ 42) (s : Str) : cutTerminal (c :: s) = c :: cutTerminal s := by
  simp [cutTerminal, hc, hc.symm]

lemma cutTerminal_eq_nil : cutTerminal s = [] ↔ s = [] := by
  cases s with
  | nil => simp [cutTerminal]
  | cons c s =>
      rcases eq_or_ne c 42 with rfl | hc
      · simp [cutTerminal_star]
      · simp [cutTerminal_cons hc]

lemma head_cutTerminal (s : Str) : (cutTerminal s).head? = s.head? := by
  cases s with
  | nil => rfl
  | cons c s =>
      rcases eq_or_ne c 42 with rfl | hc
      · simp [cutTerminal_star]
      · simp [cutTerminal_cons hc]

@[simp] lemma open_lt (u : Str) : Open (u ++ [60]) := by simp [Open]

@[simp] lemma open_gt (u : Str) : ¬ Open (u ++ [62]) := by simp [Open]

lemma open_other (h60 : c ≠ 60) (h62 : c ≠ 62) (u : Str) : Open (u ++ [c]) ↔ Open u := by
  simp [Open, h60, h62]

lemma bracketsOk_nil (u : Str) : BracketsOk u [] := ⟨by simp, by simp⟩

/-- The rules for the first character, and those for the others. -/
lemma bracketsOk_cons : BracketsOk u (c :: s) ↔
    (c = 60 → ¬ Open u ∧ u.getLast? = some slash) ∧
    (c = 62 → Open u ∧ (s = [] ∨ s.head? = some slash)) ∧ BracketsOk (u ++ [c]) s := by
  constructor
  · rintro ⟨hbegins, hends⟩
    refine ⟨?_, ?_, ?_, ?_⟩
    · rintro rfl
      simpa using hbegins [] s rfl
    · rintro rfl
      simpa using hends [] s rfl
    · rintro a b rfl
      simpa using hbegins (c :: a) b rfl
    · rintro a b rfl
      simpa using hends (c :: a) b rfl
  · rintro ⟨hlt, hgt, hbegins, hends⟩
    refine ⟨?_, ?_⟩
    · rintro (_ | ⟨x, a⟩) b heq
      · obtain ⟨rfl, rfl⟩ := List.cons.inj heq
        simpa using hlt rfl
      · obtain ⟨rfl, htail⟩ := List.cons.inj heq
        simpa using hbegins a b htail
    · rintro (_ | ⟨x, a⟩) b heq
      · obtain ⟨rfl, rfl⟩ := List.cons.inj heq
        simpa using hgt rfl
      · obtain ⟨rfl, htail⟩ := List.cons.inj heq
        simpa using hends a b htail

end Steps

/-! ## The loop -/

/-- The loop has read `u`: it knows the last character, and whether a parameter is open. -/
structure Reading (u : Str) (prev : UInt8) (part : Part) : Prop where
  last : prev = slash ↔ u.getLast? = some slash
  kind : part.type = .parameter ↔ Open u
  text : part.type ≠ .terminal

section Loop

variable {u s : Str} {prev : UInt8} {part : Part}

lemma reading_start : Reading [] 0 (.string []) := ⟨by decide, by decide, nofun⟩

lemma reading_lt (u : Str) : Reading (u ++ [60]) 60 (.parameter []) :=
  ⟨by simp, by simp [Part.type], nofun⟩

lemma reading_gt (u : Str) : Reading (u ++ [62]) 62 (.string []) :=
  ⟨by simp, by simp [Part.type], nofun⟩

lemma Reading.next {c : UInt8} (h : Reading u prev part) (h60 : c ≠ 60) (h62 : c ≠ 62) (str : Str) :
    Reading (u ++ [c]) c (part.withStr str) := by
  have htype : (part.withStr str).type = part.type := by cases part <;> rfl
  exact ⟨by simp, by rw [htype, open_other h60 h62]; exact h.kind, htype ▸ h.text⟩

/-- The loop goes to the end where the brackets are in order, and a parameter may be open only where
it stops at a `*`. -/
lemma convertFrom_isSome (h : Reading u prev part) :
    (convertFrom prev s part).isSome ↔
      BracketsOk u (cutTerminal s) ∧ (42 ∈ s ∨ ¬ Open (u ++ cutTerminal s)) := by
  induction s generalizing u prev part with
  | nil =>
      have hnil : cutTerminal [] = [] := rfl
      rw [convertFrom, hnil, List.append_nil, ← h.kind]
      split_ifs with hparam hempty
      · simp [hparam]
      · simp [hparam, bracketsOk_nil]
      · simp [hparam, bracketsOk_nil]
  | cons c s ih =>
      rcases eq_or_ne c 42 with rfl | hstar
      · have hone : BracketsOk u [42] := by
          rw [bracketsOk_cons]
          exact ⟨by simp, by simp, bracketsOk_nil _⟩
        simp [convertFrom, cutTerminal_star, hone]
      rw [cutTerminal_cons hstar, bracketsOk_cons, List.append_cons u, List.mem_cons,
        or_iff_right hstar.symm, convertFrom, ← h.kind, ← h.last]
      by_cases h60 : c = 60
      · subst h60
        rw [if_pos rfl]
        split_ifs with hbad
        · simp only [Option.isSome_none, Bool.false_eq_true, false_iff]
          rintro ⟨⟨hlt, -⟩, -⟩
          exact hbad.elim (hlt trivial).1 fun hlast => hlast (hlt trivial).2
        · rw [not_or, not_not] at hbad
          rw [Option.isSome_map, ih (reading_lt u)]
          simp [hbad]
      by_cases h62 : c = 62
      · subst h62
        rw [if_neg h60, if_pos rfl, cutTerminal_eq_nil, head_cutTerminal]
        split_ifs with hbad
        · simp only [Option.isSome_none, Bool.false_eq_true, false_iff]
          rintro ⟨⟨-, hgt, -⟩, -⟩
          obtain ⟨hopen, hend⟩ := hgt trivial
          exact hbad.elim (fun hclosed => hclosed hopen) fun hmore => hend.elim hmore.1 hmore.2
        · rw [not_or, not_not, not_and_or, not_not, not_not] at hbad
          rw [Option.isSome_map, ih (reading_gt u)]
          simp [hbad]
      · rw [if_neg h60, if_neg h62, if_neg hstar, ih (h.next h60 h62 _)]
        simp [h60, h62]

/-- What the loop reads, printed: the part begun before, and then the text. -/
lemma patternStr_convertFrom {pattern : Pattern} (h : Reading u prev part)
    (hp : convertFrom prev s part = some pattern) (hopen : 42 ∈ s → ¬ Open (u ++ cutTerminal s)) :
    patternStr pattern =
      (if part.type = .parameter then [60] else []) ++ part.str ++ cutTerminal s := by
  induction s generalizing u prev part pattern with
  | nil =>
      rw [convertFrom] at hp
      split_ifs at hp with hparam hnil
      · obtain rfl := Option.some.inj hp
        simp [patternStr, hparam, hnil, cutTerminal]
      · obtain rfl := Option.some.inj hp
        cases part with
        | string str => simp [patternStr, Part.print, Part.type, Part.str, cutTerminal]
        | parameter str => exact absurd rfl hparam
        | terminal => exact absurd rfl h.text
  | cons c s ih =>
      rcases eq_or_ne c 42 with rfl | hstar
      · have hclosed := hopen List.mem_cons_self
        rw [cutTerminal_star, open_other (by decide) (by decide), ← h.kind] at hclosed
        have hpattern : [part, .terminal] = pattern := by simpa [convertFrom] using hp
        subst hpattern
        cases part with
        | string str => simp [patternStr, Part.print, Part.type, Part.str, cutTerminal_star]
        | parameter str => exact absurd rfl hclosed
        | terminal => exact absurd rfl h.text
      rw [cutTerminal_cons hstar, List.append_cons u] at hopen
      rw [cutTerminal_cons hstar]
      replace hopen := fun hm => hopen (List.mem_cons_of_mem c hm)
      rw [convertFrom] at hp
      by_cases h60 : c = 60
      · subst h60
        rw [if_pos rfl] at hp
        split_ifs at hp with hbad
        rw [not_or] at hbad
        obtain ⟨xs, hxs, rfl⟩ := Option.map_eq_some_iff.mp hp
        have hrest := ih (reading_lt u) hxs hopen
        cases part with
        | string str => simpa [patternStr, Part.print, Part.type, Part.str] using hrest
        | parameter str => exact absurd rfl hbad.1
        | terminal => exact absurd rfl h.text
      by_cases h62 : c = 62
      · subst h62
        rw [if_neg h60, if_pos rfl] at hp
        split_ifs at hp with hbad
        rw [not_or, not_not] at hbad
        obtain ⟨xs, hxs, rfl⟩ := Option.map_eq_some_iff.mp hp
        have hrest := ih (reading_gt u) hxs hopen
        cases part with
        | string str => exact absurd hbad.1 (by simp [Part.type])
        | parameter str => simpa [patternStr, Part.print, Part.type, Part.str] using hrest
        | terminal => exact absurd rfl h.text
      · rw [if_neg h60, if_neg h62, if_neg hstar] at hp
        have hrest := ih (h.next h60 h62 _) hp hopen
        cases part with
        | string str => simpa [Part.withStr, Part.type, Part.str] using hrest
        | parameter str => simpa [Part.withStr, Part.type, Part.str] using hrest
        | terminal => exact absurd rfl h.text

end Loop

/-! ## The law -/

lemma mem_cutTerminal (s : Str) : 42 ∈ cutTerminal s ↔ 42 ∈ s := by
  constructor
  · intro h
    rcases List.mem_append.mp h with h | h
    · exact List.takeWhile_subset _ h
    · split_ifs at h with hs
      · exact hs
      · cases h
  · intro h
    simp [cutTerminal, h]

/-- It is read where the brackets are in order, and closed or in front of a `*`. -/
lemma convertPathToPattern_isSome (route : Str) : (convertPathToPattern route).isSome ↔
    BracketsOk [] (normalRoute route) ∧
      (42 ∈ normalRoute route ∨ ¬ Open (normalRoute route)) := by
  rw [convertPathToPattern, convertFrom_isSome reading_start, normalRoute, mem_cutTerminal]
  rfl

/-- **The law holds unless a `*` stands in an open parameter**, behind brackets that are all in
order; the route is one that the loop's 32 bit index can run through. -/
theorem parseLaw_iff (r : Route) : ParseLaw r.bytes ↔
    ¬ (42 ∈ normalRoute r.bytes ∧ BracketsOk [] (normalRoute r.bytes) ∧
      Open (normalRoute r.bytes)) := by
  have hsome := convertPathToPattern_isSome r.bytes
  constructor
  · rintro ⟨hlaw, -⟩ ⟨hstar, hok, hopen⟩
    exact (hlaw.mp (hsome.mpr ⟨hok, .inl hstar⟩)).2 hopen
  · intro h
    refine ⟨?_, ?_⟩
    · rw [hsome]
      constructor
      · rintro ⟨hok, hstar | hclosed⟩
        · exact ⟨hok, fun hopen => h ⟨hstar, hok, hopen⟩⟩
        · exact ⟨hok, hclosed⟩
      · rintro ⟨hok, hclosed⟩
        exact ⟨hok, .inr hclosed⟩
    · intro pattern hp
      have hok := (hsome.mp (by simp [hp])).1
      refine (patternStr_convertFrom reading_start hp ?_).trans ?_
      · intro hstar hopen
        exact h ⟨(mem_cutTerminal _).mpr hstar, hok, hopen⟩
      · rfl

/-- `/<a*` is read, and not as it is written. -/
theorem open_parameter_at_terminal : ¬ ∀ r : Route, ParseLaw r.bytes := by
  intro h
  have hlaw :=
    (h ⟨[47, 60, 97, 42], by decide⟩).2 [.string [47], .parameter [97], .terminal] (by decide)
  exact absurd hlaw (by decide)

end UrlRouter

end Is2
