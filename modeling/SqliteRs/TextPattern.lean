import SqliteRs.SqlValue

/-!
LIKE and GLOB on lists of characters. LIKE folds ASCII case and knows `%`, `_`
and an escape character; GLOB is exact and knows `*`, `?` and classes in square
brackets. Both accept the texts that split over the pattern's items; for plain
text before one closing wildcard that compares the text's first characters.
-/

namespace SqliteRs

open List

def asciiEq (left right : Char) : Bool := left.toLower == right.toLower

/-- Every round leaves less of the pattern, so its length is enough steps. -/
def likeRec (escape : Option Char) : Nat → List Char → List Char → Bool
  | 0, pattern, text => pattern.isEmpty && text.isEmpty
  | _ + 1, [], text => text.isEmpty
  | steps + 1, first :: rest, text =>
    if some first = escape ∧ rest ≠ [] then
      match rest, text with
      | literal :: more, char :: others => asciiEq char literal && likeRec escape steps more others
      | _, _ => false
    else if first = '%' then
      -- a run of `%` behaves as one
      let after := rest.dropWhile (· == '%')
      after.isEmpty || text.tails.any fun tail => likeRec escape steps after tail
    else
      match text with
      | [] => false
      | char :: others => (first = '_' || asciiEq char first) && likeRec escape steps rest others

def likeMatch (text pattern : List Char) (escape : Option Char) : Bool :=
  likeRec escape pattern.length pattern text

/-- The rest of a class: whether the character was met and the pattern behind the
closing bracket. A bracket in the first place is a member. -/
def classRest (char : Option Char) (first matched : Bool) : List Char → Option (Bool × List Char)
  | [] => none
  | low :: '-' :: high :: rest =>
    if low = ']' ∧ first = false then some (matched, '-' :: high :: rest)
    else if high ≠ ']' then
      classRest char false (matched || char.any fun held => low ≤ held && held ≤ high) rest
    else classRest char false (matched || char == some low) ('-' :: high :: rest)
  | member :: rest =>
    if member = ']' ∧ first = false then some (matched, rest)
    else classRest char false (matched || char == some member) rest

def globClass (pattern : List Char) (char : Option Char) : Option (Bool × List Char) :=
  let (negate, members) := match pattern with
    | '^' :: members => (true, members)
    | members => (false, members)
  (classRest char true false members).map fun (matched, rest) =>
    (matched != negate && char.isSome, rest)

def globRec : Nat → List Char → List Char → Bool
  | 0, pattern, text => pattern.isEmpty && text.isEmpty
  | _ + 1, [], text => text.isEmpty
  | steps + 1, first :: rest, text =>
    if first = '*' then
      let after := rest.dropWhile (· == '*')
      after.isEmpty || text.tails.any fun tail => globRec steps after tail
    else
      match text with
      | [] => false
      | char :: others =>
        if first = '[' then
          match globClass rest (some char) with
          | some (true, behind) => globRec steps behind others
          | _ => false
        else (first = '?' || char == first) && globRec steps rest others

def globMatch (text pattern : List Char) : Bool := globRec pattern.length pattern text

/-- An item of a pattern: any string, or one character that passes a test. -/
inductive PatternItem
  | any
  | one (test : Char → Bool)

/-- The text splits into parts that match the items one by one. -/
def Splits : List PatternItem → List Char → Prop
  | [], text => text = []
  | .any :: items, text => ∃ others, others <:+ text ∧ Splits items others
  | .one _ :: _, [] => False
  | .one test :: items, char :: others => test char = true ∧ Splits items others

def likeItem (char : Char) : PatternItem :=
  if char = '%' then .any else .one fun held => char = '_' || asciiEq held char

/-- The character behind an escape is plain; an escape at the end stands for itself. -/
def likeItems (escape : Option Char) : List Char → List PatternItem
  | [] => []
  | [last] => [likeItem last]
  | first :: next :: rest =>
    if some first = escape then .one (asciiEq · next) :: likeItems escape rest
    else likeItem first :: likeItems escape (next :: rest)

/-- Whether a class with these members, single ones and ranges, holds the character. -/
def memberTest (char : Char) : List Char → Bool
  | [] => false
  | low :: '-' :: high :: rest => (low ≤ char && char ≤ high) || memberTest char rest
  | member :: rest => char == member || memberTest char rest

/-- A class as a test, and the pattern behind the closing bracket. A bracket in
the first place is a member. -/
def classOf (pattern : List Char) : Option ((Char → Bool) × List Char) :=
  let (negate, members) := match pattern with
    | '^' :: members => (true, members)
    | members => (false, members)
  let more := members.drop 1
  if ']' ∈ more then
    some (fun char => memberTest char (members.take 1 ++ more.takeWhile (· != ']')) != negate,
      (more.dropWhile (· != ']')).tail)
  else none

variable {steps : Nat} {escape : Option Char} {pattern behind : List Char} {test : Char → Bool}

theorem classOf_shorter (found : classOf pattern = some (test, behind)) :
    behind.length ≤ pattern.length := by
  unfold classOf at found
  split at found
  rename_i members same
  have shorter : members.length ≤ pattern.length := by
    split at same <;> cases same <;> simp
  dsimp only at found
  split at found
  · cases found
    exact (((tail_suffix _).trans (dropWhile_suffix _)).trans (drop_suffix 1 _)).length_le.trans shorter
  · cases found

/-- An unterminated class passes no character. -/
def globItems : List Char → List PatternItem
  | [] => []
  | first :: rest =>
    if first = '*' then .any :: globItems rest
    else if first = '[' then
      match _found : classOf rest with
      | some (test, behind) => .one test :: globItems behind
      | none => [.one fun _ => false]
    else .one (fun char => first = '?' || char == first) :: globItems rest
termination_by pattern => pattern.length
decreasing_by
  all_goals simp
  exact classOf_shorter _found

/-- The loop over the starts behind a run of wildcards. -/
theorem run_accepts {items : List Char → List PatternItem} {wild : Char}
    {accepts : List Char → Bool} {rest text : List Char} (none : items [] = [])
    (each : ∀ rest, items (wild :: rest) = .any :: items rest)
    (later : ∀ tail, accepts tail = true ↔ Splits (items (rest.dropWhile (· == wild))) tail) :
    ((rest.dropWhile (· == wild)).isEmpty || text.tails.any accepts) = true ↔
      Splits (items (wild :: rest)) text := by
  induction rest with
  | nil => simp [each, none, Splits]
  | cons first rest ih =>
    by_cases same : first = wild
    · subst same
      rw [dropWhile_cons_of_pos (by simp)] at later ⊢
      rw [ih later, each, each, each]
      constructor
      · rintro ⟨others, suffix, later⟩
        exact ⟨text, suffix_rfl, others, suffix, later⟩
      · rintro ⟨_, shorter, others, suffix, later⟩
        exact ⟨others, suffix.trans shorter, later⟩
    · rw [dropWhile_cons_of_neg (by simpa using same)] at later ⊢
      simp [each, Splits, later]

theorem likeItems_cons {first : Char} {rest : List Char}
    (plain : ¬ (some first = escape ∧ rest ≠ [])) :
    likeItems escape (first :: rest) = likeItem first :: likeItems escape rest := by
  cases rest <;> simp_all [likeItems]

theorem likeRec_iff {text : List Char} (enough : pattern.length ≤ steps) :
    likeRec escape steps pattern text = true ↔ Splits (likeItems escape pattern) text := by
  fun_induction likeRec escape steps pattern text
  case case1 => simp_all [likeItems, Splits]
  case case2 => simp [likeItems, Splits]
  case case3 escaped ih =>
    simp [likeItems, escaped, Splits, ih (Nat.le_of_succ_le (Nat.le_of_succ_le_succ enough))]
  case case4 rest text escaped short =>
    cases rest with
    | nil => exact absurd rfl escaped.2
    | cons =>
      cases text with
      | nil => simp [likeItems, escaped.1, Splits]
      | cons => exact (short _ _ _ _ rfl rfl).elim
  case case5 rest text after plain ih =>
    have later := fun tail =>
      ih tail ((length_dropWhile_le _ _).trans (Nat.le_of_succ_le_succ enough))
    by_cases same : some '%' = escape
    · obtain rfl : rest = [] := by simpa [same] using plain
      simp [likeItems, likeItem, Splits, after]
    · exact run_accepts rfl (fun _ => likeItems_cons fun both => same both.1) later
  case case6 plain notAny => simp [likeItems_cons plain, likeItem, notAny, Splits]
  case case7 plain notAny _ _ ih =>
    simp [likeItems_cons plain, likeItem, notAny, Splits, ih (Nat.le_of_succ_le_succ enough)]

theorem classRest_eq (char : Char) (first matched : Bool) (pattern : List Char) :
    classRest (some char) first matched pattern =
      if ']' ∈ pattern.drop first.toNat then
        some (matched || memberTest char
          (pattern.take first.toNat ++ (pattern.drop first.toNat).takeWhile (· != ']')),
          ((pattern.drop first.toNat).dropWhile (· != ']')).tail)
      else none := by
  fun_induction classRest (some char) first matched pattern
  case case1 => simp
  case case2 ends | case5 ends => simp [ends, memberTest]
  case case3 first _ _ _ _ inside plain ih | case4 first _ _ _ _ inside plain ih =>
    cases first <;> simp_all [memberTest, Bool.or_assoc, @eq_comm _ ']']
  case case6 first _ _ rest single inside ih =>
    -- what the closing bracket cuts off leaves no range either
    have alone : ∀ high more, rest.takeWhile (· != ']') ≠ '-' :: high :: more := by
      intro high more same
      obtain ⟨tail, whole⟩ := same ▸ rest.takeWhile_prefix (· != ']')
      exact single _ _ whole.symm
    cases first <;> simp_all [memberTest, Bool.or_assoc, @eq_comm _ ']']

theorem globClass_eq (pattern : List Char) (char : Char) :
    globClass pattern (some char) = (classOf pattern).map fun found => (found.1 char, found.2) := by
  unfold globClass classOf
  split
  simp only [classRest_eq]
  split <;> simp_all

theorem globItems_class (rest : List Char) : globItems ('[' :: rest) =
    match classOf rest with
    | some (test, behind) => .one test :: globItems behind
    | none => [.one fun _ => false] := by
  rw [globItems, if_neg (by decide), if_pos rfl]
  split <;> simp_all

theorem globRec_iff {text : List Char} (enough : pattern.length ≤ steps) :
    globRec steps pattern text = true ↔ Splits (globItems pattern) text := by
  fun_induction globRec steps pattern text
  case case1 => simp_all [globItems, Splits]
  case case2 => simp [globItems, Splits]
  case case3 ih =>
    exact run_accepts (by simp [globItems]) (fun _ => by simp [globItems]) fun tail =>
      ih tail ((length_dropWhile_le _ _).trans (Nat.le_of_succ_le_succ enough))
  case case4 notAny =>
    rw [globItems, if_neg notAny]
    split
    · split <;> simp [Splits]
    · simp [Splits]
  case case5 rest char _ _ class_ _ ih =>
    obtain ⟨⟨test, _⟩, found, same⟩ := Option.map_eq_some_iff.mp (globClass_eq rest char ▸ class_)
    obtain ⟨passes : test char = true, rfl⟩ := Prod.mk.inj same
    have shorter := (classOf_shorter found).trans (Nat.le_of_succ_le_succ enough)
    simp [globItems_class, found, Splits, passes, ih shorter]
  case case6 rest char _ fails _ =>
    rw [globClass_eq] at fails
    cases found : classOf rest <;> simp_all [globItems_class, Splits]
  case case7 notAny _ _ notClass ih =>
    simp [globItems, notAny, notClass, Splits, ih (Nat.le_of_succ_le_succ enough)]

/-- LIKE and GLOB accept exactly the texts that split over the pattern's items. -/
theorem patterns_accept_splits (text pattern : List Char) (escape : Option Char) :
    (likeMatch text pattern escape = true ↔ Splits (likeItems escape pattern) text) ∧
      (globMatch text pattern = true ↔ Splits (globItems pattern) text) :=
  ⟨likeRec_iff le_rfl, globRec_iff le_rfl⟩

theorem likeMatch_plain (plain text : List Char) (free : ∀ char ∈ plain, char ≠ '%' ∧ char ≠ '_') :
    likeMatch text (plain ++ ['%']) none = true ↔
      (text.take plain.length).map Char.toLower = plain.map Char.toLower := by
  rw [likeMatch, likeRec_iff le_rfl]
  induction plain generalizing text with
  | nil => simp [likeItems, likeItem, Splits]
  | cons first rest ih =>
    obtain ⟨⟨notAny, notOne⟩, free⟩ := forall_mem_cons.mp free
    rw [cons_append, likeItems_cons (by simp), likeItem, if_neg notAny]
    cases text <;> simp [Splits, notOne, ih _ free, asciiEq]

theorem globMatch_plain (plain text : List Char)
    (free : ∀ char ∈ plain, char ≠ '*' ∧ char ≠ '?' ∧ char ≠ '[') :
    globMatch text (plain ++ ['*']) = true ↔ plain <+: text := by
  rw [globMatch, globRec_iff le_rfl]
  induction plain generalizing text with
  | nil => simp [globItems, Splits]
  | cons first rest ih =>
    obtain ⟨⟨notAny, notOne, notClass⟩, free⟩ := forall_mem_cons.mp free
    rw [cons_append, globItems, if_neg notAny, if_neg notClass]
    cases text <;> simp [Splits, notOne, ih _ free, cons_prefix_cons, @eq_comm _ first]

/-- What `text` reads a value as; `lossy` is the library's reading of bytes. -/
def asText (lossy : Bytes → List Char) : Value → List Char
  | .null => []
  | .integer number => formatInteger number
  | .real number => formatReal number
  | .text chars => chars
  | .blob bytes => lossy bytes

end SqliteRs
