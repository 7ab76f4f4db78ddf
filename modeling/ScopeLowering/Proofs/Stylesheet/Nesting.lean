import ScopeLowering.Proofs.Stylesheet.Enclosure

/-!
# The nesting limit

A block read to the bottom is a tree of rules, as deep as its grouping at-rules are nested. The
limit of lowering takes from this tree the grouping at-rules that lie too deep, and nothing
else: what is written is the print of the tree that is left. The calls that write it are
counted beside it, and so few of them are open at once as the limit says.
-/

namespace ScopeLowering.Stylesheet

open ScopeLowering.Text

/-! ## Trees of rules -/

inductive Rule where
  | definition (header body : List Char)
  | style (header declarations : List Char)
  | grouping (header : List Char) (inner : List Rule)

theorem length_body_lt {text : List Char} {construct : Construct}
    (member : construct ∈ constructs text) : construct.body.length < text.length := by
  induction text using constructs.induct with
  | case1 text first rest found ih =>
      obtain ⟨before, shape, -⟩ := firstConstruct?_eq_some_iff.mp found
      have whole := congrArg List.length shape
      simp only [List.length_append, List.length_cons] at whole
      rw [constructs_of_some found, List.mem_cons] at member
      rcases member with rfl | later
      · omega
      · have := ih later
        omega
  | case2 text none =>
      rw [constructs_of_none none] at member
      cases member

def rules (text : List Char) : List Rule :=
  (constructs text).attach.map fun construct =>
    match construct.val.kind with
    | .definition => .definition construct.val.header construct.val.body
    | .plain => .style construct.val.header construct.val.body
    | .grouping => .grouping construct.val.header (rules construct.val.body)
termination_by text.length
decreasing_by exact length_body_lt construct.property

def Construct.rule (construct : Construct) : Rule :=
  match construct.kind with
  | .definition => .definition construct.header construct.body
  | .plain => .style construct.header construct.body
  | .grouping => .grouping construct.header (rules construct.body)

theorem rules_eq (text : List Char) : rules text = (constructs text).map Construct.rule := by
  rw [rules]
  exact List.attach_map_val (f := Construct.rule)

mutual

def Rule.print? (root : List Char) : Rule → Option (List Char)
  | .definition header body => some (braces header body)
  | .style header declarations =>
      let selectors := selectorsUnder root header
      if selectors.isEmpty then none else some (braces selectors declarations)
  | .grouping header inner =>
      some (braces header ('\n' :: joinLines (prints root inner) ++ ['\n']))

def prints (root : List Char) : List Rule → List (List Char)
  | [] => []
  | rule :: rules => (rule.print? root).toList ++ prints root rules

end

mutual

/-- A rule without the grouping at-rules that have too many others above them, where `above`
of them are above the rule itself. -/
def Rule.prune? (above : Nat) : Rule → Option Rule
  | .definition header body => some (.definition header body)
  | .style header declarations => some (.style header declarations)
  | .grouping header inner =>
      if maxNesting ≤ above then none else some (.grouping header (prune (above + 1) inner))

def prune (above : Nat) : List Rule → List Rule
  | [] => []
  | rule :: rules => (rule.prune? above).toList ++ prune above rules

end

theorem prints_eq (root : List Char) (list : List Rule) :
    prints root list = list.filterMap (Rule.print? root) := by
  induction list with
  | nil => rfl
  | cons rule list ih =>
      rw [prints, ih, List.filterMap_cons]
      cases rule.print? root <;> rfl

theorem prune_eq (above : Nat) (list : List Rule) :
    prune above list = list.filterMap (Rule.prune? above) := by
  induction list with
  | nil => rfl
  | cons rule list ih =>
      rw [prune, ih, List.filterMap_cons]
      cases rule.prune? above <;> rfl

/-! ## What is written -/

/-- What is written for a construct, where the limit allows for some levels more. -/
theorem Construct.lower?_eq_prune {root : List Char} {above levels : Nat}
    (limit : above + levels = maxNesting)
    (inside : ∀ inner, levels = inner + 1 → ∀ body,
      lowerBlock root inner body = joinLines (prints root (prune (above + 1) (rules body))))
    (construct : Construct) :
    construct.lower? root (innerWriter root levels) =
      (construct.rule.prune? above).bind (Rule.print? root) := by
  unfold lower? rule
  cases construct.kind with
  | definition => rfl
  | plain => rfl
  | grouping =>
      cases levels with
      | zero =>
          have reached : maxNesting ≤ above := by omega
          simp [innerWriter, Rule.prune?, reached]
      | succ levels =>
          have free : ¬maxNesting ≤ above := by omega
          simp [innerWriter, Rule.prune?, free, Rule.print?, inside levels rfl]

theorem lowerBlock_eq_prints_of_inside {root : List Char} {above levels : Nat}
    (limit : above + levels = maxNesting)
    (inside : ∀ inner, levels = inner + 1 → ∀ body,
      lowerBlock root inner body = joinLines (prints root (prune (above + 1) (rules body))))
    (body : List Char) :
    lowerBlock root levels body = joinLines (prints root (prune above (rules body))) := by
  rw [lowerBlock_eq_joinLines, rules_eq, prune_eq, prints_eq, List.filterMap_map,
    List.filterMap_filterMap]
  exact congrArg joinLines
    (List.filterMap_congr fun construct _ => construct.lower?_eq_prune limit inside)

/-- Lowering with some levels left writes the tree without what lies deeper. -/
theorem lowerBlock_eq_prints {root : List Char} {above levels : Nat}
    (limit : above + levels = maxNesting) (body : List Char) :
    lowerBlock root levels body = joinLines (prints root (prune above (rules body))) := by
  induction levels generalizing above body with
  | zero => exact lowerBlock_eq_prints_of_inside limit (fun _ absurdity => by cases absurdity) body
  | succ levels ih =>
      refine lowerBlock_eq_prints_of_inside limit (fun inner same inside => ?_) body
      obtain rfl := Nat.succ.inj same
      exact ih (by omega) inside

/-! ## What is left of a tree -/

/-- A place in a tree of rules: the headers of the grouping at-rules above it, from the outermost
on, its own header, and its body unless that is a block of rules again. -/
structure Place where
  above : List (List Char)
  header : List Char
  body : Option (List Char)

/-- Whether a place is within the limit. A grouping at-rule counts among those that its own rules
lie under. -/
def Place.withinLimit (place : Place) : Bool :=
  match place.body with
  | some _ => place.above.length ≤ maxNesting
  | none => place.above.length < maxNesting

mutual

def Rule.places (above : List (List Char)) : Rule → List Place
  | .definition header body => [⟨above, header, some body⟩]
  | .style header declarations => [⟨above, header, some declarations⟩]
  | .grouping header inner => ⟨above, header, none⟩ :: places (above ++ [header]) inner

def places (above : List (List Char)) : List Rule → List Place
  | [] => []
  | rule :: rules => rule.places above ++ places above rules

end

mutual

theorem Rule.above_of_mem_places {above : List (List Char)} {place : Place} :
    ∀ {rule : Rule}, place ∈ rule.places above → above.length ≤ place.above.length
  | .definition header body, member => by
      obtain rfl := List.mem_singleton.mp member
      exact Nat.le_refl _
  | .style header declarations, member => by
      obtain rfl := List.mem_singleton.mp member
      exact Nat.le_refl _
  | .grouping header inner, member => by
      rcases List.mem_cons.mp member with rfl | inside
      · exact Nat.le_refl _
      · have deeper := above_of_mem_places inside
        rw [List.length_append] at deeper
        omega

theorem above_of_mem_places {above : List (List Char)} {place : Place} :
    ∀ {list : List Rule}, place ∈ places above list → above.length ≤ place.above.length
  | rule :: list, member => by
      rcases List.mem_append.mp member with here | later
      · exact Rule.above_of_mem_places here
      · exact above_of_mem_places later

end

theorem places_append (above : List (List Char)) (first second : List Rule) :
    places above (first ++ second) = places above first ++ places above second := by
  induction first with
  | nil => rfl
  | cons rule first ih => rw [List.cons_append, places, places, ih, List.append_assoc]

/-- A grouping at-rule at the limit is taken away with all that lies in it. -/
theorem filter_places_grouping {above : List (List Char)} (reached : maxNesting ≤ above.length)
    (header : List Char) (inner : List Rule) :
    ((Rule.grouping header inner).places above).filter Place.withinLimit = [] := by
  refine List.filter_eq_nil_iff.mpr fun place member => ?_
  rw [Rule.places, List.mem_cons] at member
  rcases member with rfl | inside
  · simpa [Place.withinLimit] using reached
  · have deeper := above_of_mem_places inside
    rw [List.length_append, List.length_singleton] at deeper
    unfold Place.withinLimit
    split <;> simp only [decide_eq_true_eq] <;> omega

mutual

theorem Rule.places_prune? {above : List (List Char)} (limit : above.length ≤ maxNesting) :
    ∀ rule : Rule, Stylesheet.places above (rule.prune? above.length).toList =
      (rule.places above).filter Place.withinLimit
  | .definition header body => by
      simp [Rule.prune?, Rule.places, Stylesheet.places, Place.withinLimit, limit]
  | .style header declarations => by
      simp [Rule.prune?, Rule.places, Stylesheet.places, Place.withinLimit, limit]
  | .grouping header inner => by
      by_cases reached : maxNesting ≤ above.length
      · rw [filter_places_grouping reached, Rule.prune?, if_pos reached]
        rfl
      · have room : (above ++ [header]).length ≤ maxNesting := by
          rw [List.length_append, List.length_singleton]
          omega
        have inside := places_prune room inner
        rw [List.length_append, List.length_singleton] at inside
        have here : Place.withinLimit ⟨above, header, none⟩ = true := by
          simpa [Place.withinLimit] using Nat.lt_of_not_le reached
        rw [Rule.prune?, if_neg reached, Rule.places, List.filter_cons_of_pos here, ← inside]
        simp [Stylesheet.places, Rule.places]

/-- Pruning keeps the places within the limit, in their order and with all that is above them. -/
theorem places_prune {above : List (List Char)} (limit : above.length ≤ maxNesting) :
    ∀ list : List Rule,
      places above (prune above.length list) = (places above list).filter Place.withinLimit
  | [] => rfl
  | rule :: list => by
      rw [prune, places_append, rule.places_prune? limit, places_prune limit list, places,
        List.filter_append]

end

/-! ## Depth -/

mutual

def Rule.nesting : Rule → Nat
  | .definition _ _ => 0
  | .style _ _ => 0
  | .grouping _ inner => nesting inner + 1

def nesting : List Rule → Nat
  | [] => 0
  | rule :: rules => max rule.nesting (nesting rules)

end

theorem length_prune_le (above : Nat) (list : List Rule) :
    (prune above list).length ≤ list.length := by
  rw [prune_eq]
  exact List.length_filterMap_le _ _

mutual

theorem Rule.prune?_eq_some_iff {above : Nat} (limit : above ≤ maxNesting) :
    ∀ rule : Rule, rule.prune? above = some rule ↔ above + rule.nesting ≤ maxNesting
  | .definition header body => by simp [Rule.prune?, Rule.nesting, limit]
  | .style header declarations => by simp [Rule.prune?, Rule.nesting, limit]
  | .grouping header inner => by
      by_cases reached : maxNesting ≤ above
      · rw [Rule.prune?, if_pos reached, Rule.nesting]
        refine iff_of_false (fun absurdity => by cases absurdity) ?_
        omega
      · have room : above + 1 ≤ maxNesting := by omega
        have inside := prune_eq_self_iff room inner
        rw [Rule.prune?, if_neg reached, Rule.nesting, Option.some_inj, Rule.grouping.injEq,
          and_iff_right rfl, inside]
        omega

/-- Nothing is taken away exactly where the nesting stays within the limit. -/
theorem prune_eq_self_iff {above : Nat} (limit : above ≤ maxNesting) :
    ∀ list : List Rule, prune above list = list ↔ above + nesting list ≤ maxNesting
  | [] => by simp [prune, nesting, limit]
  | rule :: list => by
      have here := rule.prune?_eq_some_iff limit
      have others := prune_eq_self_iff limit list
      have whole : prune above (rule :: list) = rule :: list ↔
          rule.prune? above = some rule ∧ prune above list = list := by
        rw [prune]
        cases kept : rule.prune? above with
        | none =>
            refine iff_of_false (fun same => ?_) fun both => by cases both.1
            have shorter := length_prune_le above list
            have length := congrArg List.length same
            simp only [Option.toList_none, List.nil_append, List.length_cons] at length
            omega
        | some rule' => simp
      rw [whole, here, others, nesting]
      omega

end

/-! ## Open calls -/

/-- A text, and how many calls were open at once, at most, while it was written. -/
structure Written where
  text : List Char
  calls : Nat

def Written.join (results : List (Option (List Char) × Nat)) : Written :=
  ⟨joinLines (results.filterMap Prod.fst), (results.map Prod.snd).foldr max 0 + 1⟩

def Construct.lowerCounted (root : List Char) (inner : Option (List Char → Written))
    (construct : Construct) : Option (List Char) × Nat :=
  match construct.kind, inner with
  | .grouping, some write =>
      let body := write construct.body
      (some (braces construct.header ('\n' :: body.text ++ ['\n'])), body.calls)
  | _, _ => (construct.lower? root none, 0)

def lowerBlockCounted (root : List Char) : Nat → List Char → Written
  | 0, body => .join ((constructs body).map (Construct.lowerCounted root none))
  | levels + 1, body =>
      .join ((constructs body).map
        (Construct.lowerCounted root (some (lowerBlockCounted root levels))))

theorem Construct.lowerCounted_fst (root : List Char) (inner : Option (List Char → Written))
    (construct : Construct) :
    (construct.lowerCounted root inner).1 =
      construct.lower? root (inner.map fun write body => (write body).text) := by
  unfold lowerCounted lower?
  cases construct.kind with
  | definition => rfl
  | plain => rfl
  | grouping => cases inner <;> rfl

/-- Counting changes nothing of what is written. -/
theorem lowerBlockCounted_text (root : List Char) (levels : Nat) (body : List Char) :
    (lowerBlockCounted root levels body).text = lowerBlock root levels body := by
  induction levels generalizing body with
  | zero =>
      rw [lowerBlockCounted, lowerBlock, Written.join, List.filterMap_map]
      exact congrArg joinLines
        (List.filterMap_congr fun construct _ => construct.lowerCounted_fst root none)
  | succ levels ih =>
      rw [lowerBlockCounted, lowerBlock, Written.join, List.filterMap_map]
      refine congrArg joinLines (List.filterMap_congr fun construct _ => ?_)
      rw [Function.comp_apply, construct.lowerCounted_fst, Option.map_some]
      exact congrArg (fun write => construct.lower? root (some write)) (funext ih)

theorem nesting_map {α : Type} (rule : α → Rule) (list : List α) :
    nesting (list.map rule) = (list.map fun value => (rule value).nesting).foldr max 0 := by
  induction list with
  | nil => rfl
  | cons first list ih => rw [List.map_cons, nesting, ih, List.map_cons, List.foldr_cons]

theorem calls_join (results : List (Option (List Char) × Nat)) :
    (Written.join results).calls = (results.map Prod.snd).foldr max 0 + 1 := rfl

theorem foldr_max_min {α : Type} (limit : Nat) (height : α → Nat) (list : List α) :
    (list.map fun value => min (height value) limit).foldr max 0 =
      min ((list.map height).foldr max 0) limit := by
  induction list with
  | nil => simp
  | cons first list ih =>
      rw [List.map_cons, List.foldr_cons, ih, List.map_cons, List.foldr_cons]
      omega

theorem calls_join_constructs {root : List Char} {levels : Nat}
    {inner : Option (List Char → Written)}
    (each : ∀ construct : Construct,
      (construct.lowerCounted root inner).2 = min construct.rule.nesting levels)
    (body : List Char) :
    (Written.join ((constructs body).map (Construct.lowerCounted root inner))).calls =
      min (nesting (rules body)) levels + 1 := by
  rw [calls_join, List.map_map, rules_eq, nesting_map, ← foldr_max_min]
  exact congrArg (fun calls => calls.foldr max 0 + 1)
    (List.map_congr_left fun construct _ => each construct)

/-- Each level of the tree opens one call more, up to the limit. -/
theorem lowerBlockCounted_calls (root : List Char) (levels : Nat) (body : List Char) :
    (lowerBlockCounted root levels body).calls = min (nesting (rules body)) levels + 1 := by
  induction levels generalizing body with
  | zero =>
      refine calls_join_constructs (fun construct => ?_) body
      unfold Construct.lowerCounted
      split <;> simp_all
  | succ levels ih =>
      refine calls_join_constructs (fun construct => ?_) body
      unfold Construct.lowerCounted Construct.rule
      cases construct.kind with
      | definition => simp [Rule.nesting]
      | plain => simp [Rule.nesting]
      | grouping => simp [Rule.nesting, ih]

/-- Lowering writes the tree of a block without the grouping at-rules that have too many others
above them. All other places of the tree are kept, in order and under the same headers; nothing
is taken away exactly if the nesting is within the limit; and each level of nesting opens one
call, but the limit allows for no more. -/
theorem lowerBlock_eq_prints_prune (root body : List Char) :
    lowerBlock root maxNesting body = joinLines (prints root (prune 0 (rules body))) ∧
      places [] (prune 0 (rules body)) = (places [] (rules body)).filter Place.withinLimit ∧
      (prune 0 (rules body) = rules body ↔ nesting (rules body) ≤ maxNesting) ∧
      lowerBlockCounted root maxNesting body =
        ⟨lowerBlock root maxNesting body, min (nesting (rules body)) maxNesting + 1⟩ := by
  have limit : ([] : List (List Char)).length ≤ maxNesting := Nat.zero_le _
  refine ⟨lowerBlock_eq_prints (Nat.zero_add _) body, places_prune limit (rules body), ?_, ?_⟩
  · rw [prune_eq_self_iff (Nat.zero_le _), Nat.zero_add]
  · rw [← lowerBlockCounted_text, ← lowerBlockCounted_calls]

end ScopeLowering.Stylesheet
