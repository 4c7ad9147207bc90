import Mathlib.Data.List.Nodup
import Mathlib.Data.List.Perm.Subperm
import Mathlib.Order.Bounds.Defs
import Mathlib.Tactic.Common

/-!
# Worklists

The nodes seen grow by the successors of the nodes in a queue, level by level.
The loop returns the nodes within a number of steps of the seeds.
-/

namespace SlangNetlist.Library

variable {Node : Type} [DecidableEq Node]

/-- The candidates that have not been seen, each once and in order. -/
def unseen (seen : List Node) : List Node → List Node
  | [] => []
  | node :: rest => if node ∈ seen then unseen seen rest else node :: unseen (node :: seen) rest

/--
The loop over a queue of nodes with their depths, `none` when the fuel does not
suffice.  A bound of zero is no bound.
-/
def levels (successors : Node → List Node) (bound : Nat) :
    Nat → List (Node × Nat) → List Node → Option (List Node)
  | _, [], seen => some seen
  | 0, _ :: _, _ => none
  | fuel + 1, (node, depth) :: queue, seen =>
      if bound ≠ 0 ∧ bound ≤ depth then levels successors bound fuel queue seen
      else
        let fresh := unseen seen (successors node)
        levels successors bound fuel (queue ++ fresh.map fun next => (next, depth + 1))
          (seen ++ fresh)

/-- The nodes within a number of steps of the seeds. -/
def Within (successors : Node → List Node) (seeds : List Node) : Nat → Node → Prop
  | 0, node => node ∈ seeds
  | depth + 1, node => Within successors seeds depth node ∨
      ∃ before, Within successors seeds depth before ∧ node ∈ successors before

/-- The node is within every number of steps within which the other one is. -/
def NoFarther (successors : Node → List Node) (seeds : List Node) (node other : Node) : Prop :=
  ∀ steps, Within successors seeds steps other → Within successors seeds steps node

/-- A walk of so many steps from a start to the node. -/
inductive Walk {Place : Type} (step : Place → Place → Prop) (start : Place → Prop) :
    Nat → Place → Prop
  | start {node : Place} : start node → Walk step start 0 node
  | step {steps : Nat} {before node : Place} : Walk step start steps before → step before node →
      Walk step start (steps + 1) node

/-- The number of steps of a shortest walk to the node. -/
def Distance {Place : Type} (step : Place → Place → Prop) (start : Place → Prop) (node : Place)
    (distance : Nat) : Prop :=
  IsLeast {steps | Walk step start steps node} distance

variable {successors : Node → List Node} {seeds others seen front back : List Node} {node : Node}
  {bound depth steps fuel : Nat} {queue : List (Node × Nat)} {result : List Node}

/-! ## New nodes -/

theorem mem_unseen {candidates : List Node} :
    node ∈ unseen seen candidates ↔ node ∈ candidates ∧ node ∉ seen := by
  induction candidates generalizing seen with
  | nil => simp [unseen]
  | cons head rest ih =>
      rw [unseen]
      split
      · next old =>
          rw [ih, List.mem_cons]
          refine and_congr_left fun fresh => (or_iff_right ?_).symm
          rintro rfl
          exact fresh old
      · next new =>
          rw [List.mem_cons, ih, List.mem_cons, List.mem_cons, not_or]
          by_cases same : node = head
          · simp [same, new]
          · simp [same]

theorem nodup_unseen (seen candidates : List Node) : (unseen seen candidates).Nodup := by
  induction candidates generalizing seen with
  | nil => exact List.nodup_nil
  | cons head rest ih =>
      rw [unseen]
      split
      · exact ih seen
      · exact List.nodup_cons.mpr
          ⟨fun again => (mem_unseen.mp again).2 List.mem_cons_self, ih (head :: seen)⟩

theorem nodup_append_unseen (nodup : seen.Nodup) (candidates : List Node) :
    (seen ++ unseen seen candidates).Nodup :=
  List.nodup_append.mpr ⟨nodup, nodup_unseen seen candidates, by
    rintro old oldMem new newMem rfl
    exact (mem_unseen.mp newMem).2 oldMem⟩

/-! ## Distances -/

omit [DecidableEq Node] in
theorem Within.mono (within : Within successors seeds depth node) (more : depth ≤ steps) :
    Within successors seeds steps node := by
  induction more with
  | refl => exact within
  | step _ ih => exact Or.inl ih

omit [DecidableEq Node] in
/-- What is within one step decides what is within more steps. -/
theorem within_congr (same : ∀ node, Within successors seeds 1 node ↔
    Within successors others 1 node) (positive : 1 ≤ depth) (node : Node) :
    Within successors seeds depth node ↔ Within successors others depth node := by
  induction positive generalizing node with
  | refl => exact same node
  | step _ ih => exact or_congr (ih node) (exists_congr fun before => and_congr_left' (ih before))

section Walks

variable {Place : Type} {step : Place → Place → Prop} {start : Place → Prop} {place : Place}
  {near far : Nat}

/-- A node with a walk has a distance, which no walk falls short of. -/
theorem Walk.distance (walk : Walk step start far place) :
    ∃ near, near ≤ far ∧ Distance step start place near := by
  induction far using Nat.strongRecOn with
  | ind far ih =>
      by_cases shorter : ∃ less, less < far ∧ Walk step start less place
      · obtain ⟨less, fewer, walked⟩ := shorter
        obtain ⟨near, few, distance⟩ := ih less fewer walked
        exact ⟨near, Nat.le_trans few (Nat.le_of_lt fewer), distance⟩
      · refine ⟨far, Nat.le_refl far, walk, fun less walked => Nat.le_of_not_lt fun fewer => ?_⟩
        exact shorter ⟨less, fewer, walked⟩

/-- A relation with more steps and more starts has more walks. -/
theorem Walk.imp {other : Place → Place → Prop} {otherStart : Place → Prop}
    (steps : ∀ before node, step before node → other before node)
    (starts : ∀ node, start node → otherStart node) (walk : Walk step start far place) :
    Walk other otherStart far place := by
  induction walk with
  | start starting => exact .start (starts _ starting)
  | step _ last ih => exact ih.step (steps _ _ last)

theorem distance_congr {other : Place → Place → Prop} {otherStart : Place → Prop}
    (sameStep : ∀ before node, step before node ↔ other before node)
    (sameStart : ∀ node, start node ↔ otherStart node) :
    Distance step start place far ↔ Distance other otherStart place far := by
  have steps : step = other := funext₂ fun before node => propext (sameStep before node)
  have starts : start = otherStart := funext fun node => propext (sameStart node)
  rw [steps, starts]

end Walks

omit [DecidableEq Node] in
/-- The nodes within a number of steps are those with a walk that is no longer. -/
theorem within_iff_walk : Within successors seeds depth node ↔
    ∃ steps ≤ depth, Walk (fun before next => next ∈ successors before) (· ∈ seeds) steps node := by
  induction depth generalizing node with
  | zero =>
      constructor
      · exact fun seed => ⟨0, Nat.le_refl 0, .start seed⟩
      · rintro ⟨steps, few, walk⟩
        cases walk with
        | start seed => exact seed
        | step _ _ => omega
  | succ depth ih =>
      constructor
      · rintro (within | ⟨before, within, next⟩)
        · obtain ⟨steps, few, walk⟩ := ih.mp within
          exact ⟨steps, Nat.le_succ_of_le few, walk⟩
        · obtain ⟨steps, few, walk⟩ := ih.mp within
          exact ⟨steps + 1, Nat.succ_le_succ few, walk.step next⟩
      · rintro ⟨steps, few, walk⟩
        cases walk with
        | start seed => exact Or.inl (ih.mpr ⟨0, Nat.zero_le depth, .start seed⟩)
        | step walk next =>
            exact Or.inr ⟨_, ih.mpr ⟨_, Nat.le_of_succ_le_succ few, walk⟩, next⟩

omit [DecidableEq Node] in
/-- A node that is no farther has no greater distance. -/
theorem NoFarther.le {other : Node} {near far : Nat}
    (noFarther : NoFarther successors seeds node other)
    (distance : Distance (fun before next => next ∈ successors before) (· ∈ seeds) node near)
    (otherDistance : Distance (fun before next => next ∈ successors before) (· ∈ seeds) other far) :
    near ≤ far := by
  obtain ⟨steps, few, walk⟩ := within_iff_walk.mp
    (noFarther far (within_iff_walk.mpr ⟨far, Nat.le_refl far, otherDistance.1⟩))
  exact Nat.le_trans (distance.2 walk) few

omit [DecidableEq Node] in
/-- The nodes within a bound, by their distances. -/
theorem exists_within_iff : (∃ steps, (bound = 0 ∨ steps ≤ bound) ∧
      Within successors seeds steps node) ↔
    ∃ distance, (bound = 0 ∨ distance ≤ bound) ∧
      Distance (fun before next => next ∈ successors before) (· ∈ seeds) node distance := by
  constructor
  · rintro ⟨steps, near, within⟩
    obtain ⟨walked, few, walk⟩ := within_iff_walk.mp within
    obtain ⟨distance, fewer, shortest⟩ := walk.distance
    exact ⟨distance, near.imp_right fun bounded => by omega, shortest⟩
  · rintro ⟨distance, near, shortest⟩
    exact ⟨distance, near, within_iff_walk.mpr ⟨distance, Nat.le_refl distance, shortest.1⟩⟩

/-! ## The loop -/

/--
The queue is the rest of the nodes at a depth and the new nodes behind them:
the other nodes within the depth have their successors among those seen.
-/
structure Level (successors : Node → List Node) (seeds : List Node) (depth : Nat)
    (front back seen : List Node) : Prop where
  covered : ∀ node, Within successors seeds depth node → node ∈ seen
  expanded : ∀ node, Within successors seeds depth node →
    node ∈ front ∨ ∀ next ∈ successors node, next ∈ seen
  queued : ∀ node ∈ front, Within successors seeds depth node
  behind : ∀ node ∈ back, Within successors seeds (depth + 1) node
  sound : ∀ node ∈ seen, Within successors seeds depth node ∨ node ∈ back
  ordered : seen.Pairwise (NoFarther successors seeds)

omit [DecidableEq Node] in
/-- A node within a depth is no farther than one that is not within the depth before. -/
theorem noFarther_of_not_within {other : Node} (near : Within successors seeds (depth + 1) node)
    (far : ¬ Within successors seeds depth other) : NoFarther successors seeds node other := by
  intro steps within
  refine near.mono (Nat.lt_of_not_le fun few => ?_)
  exact far (within.mono few)

omit [DecidableEq Node] in
theorem level_seeds (successors : Node → List Node) (seeds : List Node) :
    Level successors seeds 0 seeds [] seeds where
  covered _ within := within
  expanded _ within := Or.inl within
  queued _ member := member
  behind _ member := absurd member List.not_mem_nil
  sound _ member := Or.inl member
  ordered := List.pairwise_of_forall_mem_list fun node seed _ _ steps _ =>
    Within.mono (show Within successors seeds 0 node from seed) (Nat.zero_le steps)

omit [DecidableEq Node] in
/-- The next depth begins when the nodes at a depth have been taken. -/
theorem Level.shift (level : Level successors seeds depth [] back seen) :
    Level successors seeds (depth + 1) back [] seen where
  covered node within := by
    rcases within with near | ⟨before, near, next⟩
    · exact level.covered node near
    · exact (level.expanded before near).resolve_left List.not_mem_nil node next
  expanded node within := by
    have member : node ∈ seen := by
      rcases within with near | ⟨before, near, next⟩
      · exact level.covered node near
      · exact (level.expanded before near).resolve_left List.not_mem_nil node next
    rcases level.sound node member with near | inBack
    · exact Or.inr ((level.expanded node near).resolve_left List.not_mem_nil)
    · exact Or.inl inBack
  queued := level.behind
  behind _ member := absurd member List.not_mem_nil
  sound node member := Or.inl ((level.sound node member).elim Or.inl (level.behind node))
  ordered := level.ordered

/-- One node is taken and its new successors are added. -/
theorem Level.step (level : Level successors seeds depth (node :: front) back seen) :
    Level successors seeds depth front (back ++ unseen seen (successors node))
      (seen ++ unseen seen (successors node)) where
  covered other within := List.mem_append_left _ (level.covered other within)
  expanded other within := by
    rcases level.expanded other within with queued | done
    · rcases List.mem_cons.mp queued with rfl | later
      · refine Or.inr fun next member => ?_
        by_cases old : next ∈ seen
        · exact List.mem_append_left _ old
        · exact List.mem_append_right _ (mem_unseen.mpr ⟨member, old⟩)
      · exact Or.inl later
    · exact Or.inr fun next member => List.mem_append_left _ (done next member)
  queued other member := level.queued other (List.mem_cons_of_mem _ member)
  behind other member := by
    rcases List.mem_append.mp member with old | new
    · exact level.behind other old
    · exact Or.inr ⟨node, level.queued node List.mem_cons_self, (mem_unseen.mp new).1⟩
  sound other member := by
    rcases List.mem_append.mp member with old | new
    · exact (level.sound other old).imp_right (List.mem_append_left _)
    · exact Or.inr (List.mem_append_right _ new)
  ordered := by
    -- The new nodes are not within the depth, since those are all seen.
    have far : ∀ other ∈ unseen seen (successors node), ¬ Within successors seeds depth other :=
      fun other new within => (mem_unseen.mp new).2 (level.covered other within)
    have near : ∀ other ∈ unseen seen (successors node), Within successors seeds (depth + 1) other :=
      fun other new => Or.inr ⟨node, level.queued node List.mem_cons_self, (mem_unseen.mp new).1⟩
    refine List.pairwise_append.mpr ⟨level.ordered, ?_, fun old oldMem new newMem => ?_⟩
    · exact List.pairwise_of_forall_mem_list fun first firstMem second secondMem =>
        noFarther_of_not_within (near first firstMem) (far second secondMem)
    · exact noFarther_of_not_within ((level.sound old oldMem).elim Or.inl (level.behind old))
        (far new newMem)

/-- Nodes at the bound are only taken from the queue. -/
theorem levels_of_bound (positive : bound ≠ 0) (deep : ∀ item ∈ queue, bound ≤ item.2)
    (ran : levels successors bound fuel queue seen = some result) : result = seen := by
  induction queue generalizing fuel with
  | nil =>
      rw [levels] at ran
      exact (Option.some.inj ran).symm
  | cons item rest ih =>
      cases fuel with
      | zero => cases ran
      | succ fuel =>
          rw [levels, if_pos ⟨positive, deep item List.mem_cons_self⟩] at ran
          exact ih (fun other member => deep other (List.mem_cons_of_mem _ member)) ran

omit [DecidableEq Node] in
/-- With an empty queue, the nodes seen are all that can be reached. -/
theorem Level.closed (level : Level successors seeds depth [] [] seen)
    (within : Within successors seeds steps node) : Within successors seeds depth node := by
  induction steps generalizing node with
  | zero => exact Within.mono within (Nat.zero_le depth)
  | succ steps ih =>
      rcases within with near | ⟨before, near, next⟩
      · exact ih near
      · have member := (level.expanded before (ih near)).resolve_left List.not_mem_nil node next
        exact (level.sound node member).resolve_right List.not_mem_nil

/-- The nodes within the bound, none behind a farther one. -/
def Reported (successors : Node → List Node) (seeds : List Node) (bound : Nat)
    (result : List Node) : Prop :=
  result.Pairwise (NoFarther successors seeds) ∧ ∀ node, node ∈ result ↔
    ∃ steps, (bound = 0 ∨ steps ≤ bound) ∧ Within successors seeds steps node

omit [DecidableEq Node] in
/-- With an empty queue the nodes seen are those to report. -/
theorem Level.reported (level : Level successors seeds depth [] [] seen)
    (near : bound = 0 ∨ depth ≤ bound) : Reported successors seeds bound seen := by
  refine ⟨level.ordered, fun node => ⟨fun member => ⟨depth, near, ?_⟩, ?_⟩⟩
  · exact (level.sound node member).resolve_right List.not_mem_nil
  · exact fun ⟨_, _, within⟩ => level.covered node (level.closed within)

omit [DecidableEq Node] in
/-- At the bound the nodes seen are those to report. -/
theorem Level.reported_of_bound (level : Level successors seeds bound front [] seen)
    (positive : bound ≠ 0) : Reported successors seeds bound seen := by
  refine ⟨level.ordered, fun node => ⟨fun member => ⟨bound, Or.inr (Nat.le_refl bound), ?_⟩, ?_⟩⟩
  · exact (level.sound node member).resolve_right List.not_mem_nil
  · exact fun ⟨_, few, within⟩ => level.covered node (within.mono (few.resolve_left positive))

theorem levels_spec (level : Level successors seeds depth front back seen)
    (near : bound = 0 ∨ depth ≤ bound) (room : back ≠ [] → bound = 0 ∨ depth + 1 ≤ bound)
    (ran : levels successors bound fuel
      (front.map (fun node => (node, depth)) ++ back.map fun node => (node, depth + 1)) seen =
        some result) : Reported successors seeds bound result := by
  induction fuel generalizing depth front back seen with
  | zero =>
      cases front with
      | cons head rest => cases ran
      | nil =>
          cases back with
          | cons head rest => cases ran
          | nil =>
              cases ran
              exact level.reported near
  | succ fuel ih =>
      -- The head of a front that is not empty.
      have takes {depth : Nat} {head : Node} {rest back : List Node}
          (level : Level successors seeds depth (head :: rest) back seen)
          (near : bound = 0 ∨ depth ≤ bound) (room : back ≠ [] → bound = 0 ∨ depth + 1 ≤ bound)
          (ran : levels successors bound (fuel + 1)
            ((head :: rest).map (fun node => (node, depth)) ++
              back.map fun node => (node, depth + 1)) seen = some result) :
          Reported successors seeds bound result := by
        by_cases deep : bound ≠ 0 ∧ bound ≤ depth
        · obtain rfl : depth = bound := Nat.le_antisymm (near.resolve_left deep.1) deep.2
          obtain rfl : back = [] := by
            by_contra nonempty
            have := (room nonempty).resolve_left deep.1
            omega
          obtain rfl := levels_of_bound deep.1 (by simp) ran
          exact level.reported_of_bound deep.1
        · rw [List.map_cons, List.cons_append, levels, if_neg deep] at ran
          refine ih level.step near (fun _ => ?_) (by
            rw [List.map_append, ← List.append_assoc]
            exact ran)
          omega
      cases front with
      | cons head rest => exact takes level near room ran
      | nil =>
          cases back with
          | nil =>
              cases ran
              exact level.reported near
          | cons head rest =>
              refine takes level.shift (room (List.cons_ne_nil _ _))
                (fun nonempty => absurd rfl nonempty) ?_
              rw [List.map_nil, List.append_nil]
              exact ran

/-- A bound beyond what the fuel suffices for is no bound. -/
theorem levels_of_fuel (beyond : ∀ item ∈ queue, item.2 + fuel ≤ bound) :
    levels successors bound fuel queue seen = levels successors 0 fuel queue seen := by
  induction fuel generalizing queue seen with
  | zero => cases queue <;> rfl
  | succ fuel ih =>
      cases queue with
      | nil => rfl
      | cons item rest =>
          obtain ⟨node, depth⟩ := item
          have room : depth + (fuel + 1) ≤ bound := beyond (node, depth) List.mem_cons_self
          rw [levels, levels, if_neg (by omega), if_neg (by omega)]
          refine ih fun other member => ?_
          rcases List.mem_append.mp member with old | new
          · have := beyond other (List.mem_cons_of_mem _ old)
            omega
          · obtain ⟨next, _, rfl⟩ := List.mem_map.mp new
            simp only
            omega

/-- The loop ends when the fuel is the number of nodes there are. -/
theorem exists_levels {nodes : List Node} (inside : ∀ node ∈ nodes, successors node ⊆ nodes)
    (queued : ∀ item ∈ queue, item.1 ∈ nodes) (within : seen ⊆ nodes) (nodup : seen.Nodup)
    (enough : queue.length + nodes.length ≤ fuel + seen.length) :
    ∃ result, levels successors bound fuel queue seen = some result ∧ result.Nodup := by
  induction fuel generalizing queue seen with
  | zero =>
      cases queue with
      | nil => exact ⟨seen, rfl, nodup⟩
      | cons item rest =>
          have shorter := (List.subperm_of_subset nodup within).length_le
          simp only [List.length_cons] at enough
          omega
  | succ fuel ih =>
      cases queue with
      | nil => exact ⟨seen, rfl, nodup⟩
      | cons item rest =>
          obtain ⟨node, depth⟩ := item
          have restQueued : ∀ item ∈ rest, item.1 ∈ nodes := fun other member =>
            queued other (List.mem_cons_of_mem _ member)
          have fresh : unseen seen (successors node) ⊆ nodes := fun next member =>
            inside node (queued _ List.mem_cons_self) (mem_unseen.mp member).1
          rw [levels]
          simp only [List.length_cons] at enough
          split
          · exact ih restQueued within nodup (by omega)
          · refine ih (fun other member => ?_) (List.append_subset.mpr ⟨within, fresh⟩)
              (nodup_append_unseen nodup _) ?_
            · rcases List.mem_append.mp member with old | new
              · exact restQueued other old
              · obtain ⟨next, nextMem, rfl⟩ := List.mem_map.mp new
                exact fresh nextMem
            · simp only [List.length_append, List.length_map]
              omega

/-- From distinct seeds the loop reports the nodes within the bound, each once. -/
theorem exists_levels_seeds {nodes : List Node}
    (inside : ∀ node ∈ nodes, successors node ⊆ nodes) (within : seeds ⊆ nodes)
    (nodup : seeds.Nodup) (bound : Nat) :
    ∃ result, levels successors bound nodes.length (seeds.map fun node => (node, 0)) seeds =
        some result ∧ result.Nodup ∧ Reported successors seeds bound result := by
  obtain ⟨result, ran, distinct⟩ := @exists_levels _ _ successors seeds bound nodes.length
    (seeds.map fun node => (node, 0)) nodes inside
    (fun item member => by
      obtain ⟨node, nodeMem, rfl⟩ := List.mem_map.mp member
      exact within nodeMem) within nodup (by rw [List.length_map]; omega)
  have start : levels successors bound nodes.length
      (seeds.map (fun node => (node, 0)) ++ ([] : List Node).map fun node => (node, 0 + 1)) seeds =
        some result := by
    rw [List.map_nil, List.append_nil]
    exact ran
  exact ⟨result, ran, distinct, levels_spec (level_seeds successors seeds)
    (Or.inr (Nat.zero_le bound)) (fun nonempty => absurd rfl nonempty) start⟩

end SlangNetlist.Library
