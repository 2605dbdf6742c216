import SqliteRs.SortOrder

/-!
A list cut into runs. A run goes on for as long as the items are like its first one, which
is how a scan in key order finds its groups. There is one run for each class of like items
when like items stand together, and a sort brings them together without changing their order.
-/

namespace SqliteRs

open List

section Runs

variable {Item : Type} (same : Item → Item → Bool) {like : Item → Item → Bool} {items : List Item}

def runsFrom (leader : Item) (members : List Item) : List Item → List (Item × List Item)
  | [] => [(leader, members)]
  | item :: rest =>
    if same leader item then runsFrom leader (members ++ [item]) rest
    else (leader, members) :: runsFrom item [item] rest

def runs : List Item → List (Item × List Item)
  | [] => []
  | item :: rest => runsFrom same item [item] rest

/-- Like items stand together. -/
def Clustered (items : List Item) : Prop :=
  ∀ first middle last, [first, middle, last].Sublist items → same first last = true →
    same first middle = true

def OnePerClass (items : List Item) (groups : List (Item × List Item)) : Prop :=
  groups.Pairwise (fun one other => same one.1 other.1 = false) ∧
    (∀ group ∈ groups, group.1 ∈ items ∧ group.2 = items.filter (same group.1)) ∧
    ∀ item ∈ items, ∃ group ∈ groups, same group.1 item = true

variable {same}

theorem runsFrom_clustered {leader : Item} {rest : List Item}
    (clustered : Clustered same (leader :: rest)) (members : List Item) :
    runsFrom same leader members rest = (leader, members ++ rest.filter (same leader)) ::
        runs same (rest.filter fun item => !same leader item) := by
  induction rest generalizing members with
  | nil => simp [runsFrom, runs]
  | cons item rest ih =>
    by_cases here : same leader item = true
    · have smaller : Clustered same (leader :: rest) := fun first middle last inside =>
        clustered first middle last (inside.trans (.cons_cons _ (sublist_cons_self item rest)))
      simp [runsFrom, here, ih smaller]
    -- Nothing behind the first unlike item is like the leader.
    have later : ∀ other ∈ item :: rest, same leader other = false := by
      intro other mem
      rcases mem_cons.mp mem with rfl | behind
      · simpa using here
      by_contra like
      apply here
      apply clustered leader item other _ (by simpa using like)
      exact .cons_cons _ (.cons_cons _ (singleton_sublist.mpr behind))
    rw [filter_eq_nil_iff.mpr fun other mem => by simp [later other mem],
      filter_eq_self.mpr fun other mem => by simp [later other mem]]
    simp [runsFrom, runs, here]

theorem runsFrom_head (same : Item → Item → Bool) (leader : Item) (members rest : List Item) :
    ∃ more later, runsFrom same leader members rest = (leader, members ++ more) :: later := by
  induction rest generalizing members with
  | nil => exact ⟨[], [], by simp [runsFrom]⟩
  | cons item rest ih =>
    unfold runsFrom
    split
    · obtain ⟨more, later, found⟩ := ih (members ++ [item])
      exact ⟨item :: more, later, by simp [found]⟩
    · exact ⟨[], _, by rw [append_nil]⟩

variable (laws : Equivalence fun one other => same one other = true)

include laws

theorem runs_onePerClass (clustered : Clustered same items) :
    OnePerClass same items (runs same items) := by
  induction count : items.length using Nat.strong_induction_on generalizing items with
  | _ size ih =>
    cases items with
    | nil => exact ⟨.nil, by simp [runs], by simp⟩
    | cons leader rest =>
      let others := rest.filter fun item => !same leader item
      have inside : others.Sublist (leader :: rest) :=
        filter_sublist.trans (sublist_cons_self leader rest)
      have short : others.length < size := by
        have fewer : others.length ≤ rest.length := length_filter_le _ _
        simp only [length_cons] at count
        omega
      obtain ⟨apart, groups, covered⟩ := ih others.length short
        (fun first middle last held => clustered first middle last (held.trans inside)) rfl
      have unlike : ∀ item ∈ others, same leader item = false := by
        intro item mem
        simpa using (mem_filter.mp mem).2
      have unfolded : runs same (leader :: rest) =
          (leader, (leader :: rest).filter (same leader)) :: runs same others := by
        rw [runs, runsFrom_clustered clustered, filter_cons_of_pos (laws.refl leader)]
        rfl
      rw [unfolded]
      refine ⟨pairwise_cons.mpr ⟨fun group mem => unlike _ (groups group mem).1, apart⟩,
        fun group mem => ?_, fun item mem => ?_⟩
      · rcases mem_cons.mp mem with rfl | later
        · exact ⟨mem_cons_self, rfl⟩
        obtain ⟨held, filtered⟩ := groups group later
        refine ⟨inside.subset held, ?_⟩
        -- What is like this group's first item is unlike the leader.
        have disjoint : ∀ item, same group.1 item = true → same leader item = false := by
          intro item like
          by_contra also
          exact absurd (laws.trans (by simpa using also) (laws.symm like)) (by simp [unlike _ held])
        rw [filtered, filter_filter, filter_cons]
        rw [if_neg fun like => by simpa [laws.refl] using disjoint leader like]
        apply filter_congr
        intro item _
        cases like : same group.1 item <;> simp [disjoint item, like]
      · by_cases like : same leader item = true
        · exact ⟨_, mem_cons_self, like⟩
        have kept : item ∈ others := by
          rcases mem_cons.mp mem with rfl | later
          · exact absurd (laws.refl item) like
          · exact mem_filter.mpr ⟨later, by simpa using like⟩
        obtain ⟨group, found, holds⟩ := covered item kept
        exact ⟨group, mem_cons_of_mem _ found, holds⟩

omit laws in
/-- A run begins with its leader, and the runs in their order are the items. -/
theorem runs_flatMap (same : Item → Item → Bool) (items : List Item) :
    (∀ run ∈ runs same items, ∃ more, run.2 = run.1 :: more) ∧
      (runs same items).flatMap Prod.snd = items := by
  have begun (leader : Item) (more rest : List Item) :
      (∀ run ∈ runsFrom same leader (leader :: more) rest, ∃ more, run.2 = run.1 :: more) ∧
        (runsFrom same leader (leader :: more) rest).flatMap Prod.snd = leader :: more ++ rest := by
    induction rest generalizing leader more with
    | nil => simp [runsFrom]
    | cons item rest ih =>
      unfold runsFrom
      split
      · have later := ih leader (more ++ [item])
        rw [cons_append, later.2]
        exact ⟨later.1, by simp⟩
      · have later := ih item []
        rw [forall_mem_cons, flatMap_cons, later.2]
        exact ⟨⟨⟨more, rfl⟩, later.1⟩, rfl⟩
  cases items with
  | nil => exact ⟨by simp [runs], rfl⟩
  | cons item rest => exact begun item [] rest

omit laws in
theorem runs_sublist {run : Item × List Item} (inside : run ∈ runs same items) :
    run.2.Sublist items := by
  obtain ⟨before, behind, split⟩ := append_of_mem inside
  rw [← (runs_flatMap same items).2, split, flatMap_append, flatMap_cons]
  exact (sublist_append_left _ _).trans (sublist_append_right _ _)

/-- Where neighbours are the same exactly when they are like, the runs are those of like items. -/
theorem runs_congr (likeLaws : Equivalence fun one other => like one other = true)
    (agree : items.IsChain fun one other => same one other = like one other) :
    runs same items = runs like items := by
  have begun (leader last : Item) (members rest : List Item) (near : same leader last = true)
      (close : like leader last = true)
      (agree : (last :: rest).IsChain fun one other => same one other = like one other) :
      runsFrom same leader members rest = runsFrom like leader members rest := by
    induction rest generalizing leader last members with
    | nil => rfl
    | cons item rest ih =>
      obtain ⟨here, later⟩ := isChain_cons_cons.mp agree
      have moved : same leader item = like leader item := by
        rw [Bool.eq_iff_iff]
        constructor
        · intro joined
          exact likeLaws.trans close (here ▸ laws.trans (laws.symm near) joined)
        · intro joined
          exact laws.trans near (here ▸ likeLaws.trans (likeLaws.symm close) joined)
      unfold runsFrom
      rw [moved]
      split
      · rename_i joined
        exact ih leader item _ (moved.trans joined) joined later
      · rw [ih item item _ (laws.refl item) (likeLaws.refl item) later]
  cases items with
  | nil => rfl
  | cons item rest => exact begun item item [item] rest (laws.refl item) (likeLaws.refl item) agree

theorem runsFrom_chain
    (likeLaws : Equivalence fun one other => like one other = true) {leader last : Item}
    {members rest : List Item} (near : same leader last = true) (held : last ∈ members)
    (apart : (runsFrom same leader members rest).Pairwise fun one other => like one.1 other.1 = false)
    (member : ∀ run ∈ runsFrom same leader members rest, ∀ item ∈ run.2, like run.1 item = true) :
    (last :: rest).IsChain fun one other => same one other = like one other := by
  induction rest generalizing leader last members with
  | nil => exact .singleton _
  | cons item rest ih =>
    unfold runsFrom at apart member
    rw [isChain_cons_cons]
    split at apart
    · rename_i joined
      rw [if_pos joined] at member
      refine ⟨?_, ih joined (by simp) apart member⟩
      obtain ⟨more, later, split⟩ := runsFrom_head same leader (members ++ [item]) rest
      have own := member _ (split ▸ mem_cons_self)
      rw [laws.trans (laws.symm near) joined, likeLaws.trans
        (likeLaws.symm (own last (by simp [held]))) (own item (by simp))]
    · rename_i parted
      rw [if_neg parted, forall_mem_cons] at member
      rw [pairwise_cons] at apart
      refine ⟨?_, ih (laws.refl item) (by simp) apart.2 member.2⟩
      obtain ⟨more, later, split⟩ := runsFrom_head same item [item] rest
      have unlike := apart.1 _ (split ▸ mem_cons_self)
      have differs : same last item = false :=
        Bool.eq_false_iff.mpr fun joined => parted (laws.trans near joined)
      rw [differs, eq_comm, Bool.eq_false_iff]
      intro joined
      exact Bool.eq_false_iff.mp unlike (likeLaws.trans (member.1 last held) joined)

omit laws in
/-- Runs that are each a whole class are one for each class. -/
theorem onePerClass_of_whole (likeLaws : Equivalence fun one other => like one other = true)
    (whole : ∀ run ∈ runs same items, run.2 = items.filter (like run.1)) :
    OnePerClass like items (runs same items) := by
  obtain ⟨begins, joined⟩ := runs_flatMap same items
  have led : ∀ run ∈ runs same items, run.1 ∈ run.2 := by
    intro run inside
    obtain ⟨more, own⟩ := begins run inside
    simp [own]
  refine ⟨pairwise_iff_forall_sublist.mpr fun {one other} both => ?_, fun run inside =>
    ⟨(runs_sublist inside).subset (led run inside), whole run inside⟩, fun item mem => ?_⟩
  · have here := both.subset (by simp : one ∈ [one, other])
    have there := both.subset (by simp : other ∈ [one, other])
    rw [Bool.eq_false_iff]
    intro alike
    -- Two runs of one class would take more items than the class has.
    have twice : (one.2 ++ other.2).Sublist items := by
      simpa [joined] using both.flatMap Prod.snd
    have kept (run : Item × List Item) (mem : run ∈ runs same items) (own : like one.1 run.1) :
        run.2.filter (like one.1) = items.filter (like one.1) := by
      rw [whole run mem, filter_filter]
      refine filter_congr fun item _ => ?_
      rw [Bool.and_eq_left_iff_imp]
      exact fun held => likeLaws.trans (likeLaws.symm own) held
    have double := (twice.filter (like one.1)).length_le
    rw [filter_append, kept one here (likeLaws.refl _), kept other there alike, length_append,
      ← whole one here] at double
    have some := length_pos_of_mem (led one here)
    omega
  · rw [← joined] at mem
    obtain ⟨run, inside, held⟩ := mem_flatMap.mp mem
    exact ⟨run, inside, (mem_filter.mp (whole run inside ▸ held)).2⟩

/-- The runs of the same items are the classes of like items exactly when like items stand
together and neighbours are the same exactly when they are like. -/
theorem runs_right_iff (likeLaws : Equivalence fun one other => like one other = true) :
    OnePerClass like items (runs same items) ↔ Clustered like items ∧
      items.IsChain fun one other => same one other = like one other := by
  constructor
  swap
  · rintro ⟨clustered, agree⟩
    rw [runs_congr laws likeLaws agree]
    exact runs_onePerClass likeLaws clustered
  rintro ⟨apart, classes, -⟩
  have member : ∀ run ∈ runs same items, ∀ item ∈ run.2, like run.1 item = true := by
    intro run inside item held
    exact (mem_filter.mp ((classes run inside).2 ▸ held)).2
  constructor
  · intro first middle last inside joined
    have whole := (runs_flatMap same items).2
    have held : first ∈ (runs same items).flatMap Prod.snd := whole.symm ▸ inside.subset (by simp)
    obtain ⟨run, found, own⟩ := mem_flatMap.mp held
    obtain ⟨before, behind, split⟩ := append_of_mem found
    rw [split] at apart member whole
    rw [← whole, flatMap_append, flatMap_cons] at inside
    have own := member run (by simp) first own
    rw [pairwise_append, pairwise_cons] at apart
    -- Nothing in front of the run or behind it is like its leader.
    have front : ∀ item ∈ before.flatMap Prod.snd, like run.1 item = false := by
      intro item held
      obtain ⟨other, there, held⟩ := mem_flatMap.mp held
      rw [Bool.eq_false_iff]
      intro also
      apply Bool.eq_false_iff.mp (apart.2.2 other there run (by simp))
      exact likeLaws.trans (member other (by simp [there]) item held) (likeLaws.symm also)
    have rear : ∀ item ∈ behind.flatMap Prod.snd, like run.1 item = false := by
      intro item held
      obtain ⟨other, there, held⟩ := mem_flatMap.mp held
      rw [Bool.eq_false_iff]
      intro also
      apply Bool.eq_false_iff.mp (apart.2.1.1 other there)
      exact likeLaws.trans also (likeLaws.symm (member other (by simp [there]) item held))
    have held : middle ∈ run.2 := by
      obtain ⟨head, tail, cut, left, right⟩ := sublist_append_iff.mp inside
      have none : head = [] := by
        cases head with
        | nil => rfl
        | cons item more =>
          obtain ⟨rfl, -⟩ := cons.inj cut
          exact absurd (front first (left.subset mem_cons_self)) (by simp [own])
      obtain ⟨body, ending, cut', within, right⟩ := sublist_append_iff.mp right
      rw [none, nil_append, cut'] at cut
      have none : ending = [] := by
        rcases eq_nil_or_concat ending with rfl | ⟨more, item, rfl⟩
        · rfl
        have same : last = item := by simpa using congrArg getLast? cut
        have far := rear item (right.subset (by simp))
        exact absurd far (by simp [← same, likeLaws.trans own joined])
      rw [none, append_nil] at cut
      exact within.subset (cut ▸ by simp)
    exact likeLaws.trans (likeLaws.symm own) (member run (by simp) middle held)
  · cases items with
    | nil => exact .nil
    | cons item rest => exact runsFrom_chain laws likeLaws (laws.refl item) (by simp) apart member

end Runs

section Sorted

variable {Item : Type}

theorem clustered_of_sorted {cmp : Item → Item → Ordering} [Std.TransCmp cmp] {items : List Item}
    (sorted : items.Pairwise fun one other => (cmp one other).isLE = true) :
    Clustered (fun one other => cmp one other == .eq) items := by
  intro first middle last inside like
  have ordered := sorted.sublist inside
  simp only [pairwise_cons, mem_cons, forall_eq_or_imp] at ordered
  have back : (cmp last first).isLE = true := by
    rw [@Std.OrientedCmp.eq_swap _ cmp _, beq_iff_eq.mp like]
    rfl
  have less := Std.TransCmp.isLE_trans ordered.2.1.1 back
  rw [@Std.OrientedCmp.eq_swap _ cmp _] at less
  cases place : cmp first middle <;> simp_all

end Sorted

end SqliteRs
