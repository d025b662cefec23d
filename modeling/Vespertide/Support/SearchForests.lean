import Vespertide.Support.DepthFirst

/-!
The forests that a depth-first search may grow below a node when it takes some
children of every node in an order of their own, and then the others in any
order; and the paths that such a search may go down at a stretch.
-/
namespace DepthFirst

/-- The subtrees below a node, in the order in which they are grown. -/
inductive Forest (α : Type) where
  | nil
  | cons (node : α) (below beside : Forest α)

namespace Forest
variable {α : Type}

def nodes : Forest α → List α
  | .nil => []
  | .cons node below beside => node :: (below.nodes ++ beside.nodes)

def height : Forest α → Nat
  | .nil => 0
  | .cons _ below beside => max (below.height + 1) beside.height

end Forest

variable {α : Type} [DecidableEq α]

section Growth
variable (first : α → List α) (rest : α → α → Prop)

/-- The next child that is grown: the first new one of those in order, or any other if none of
    them is new. -/
def Next (seen : List α) (u w : α) : Prop :=
  w ∉ seen ∧ ((first u).find? (· ∉ seen) = some w ∨ (∀ f ∈ first u, f ∈ seen) ∧ rest u w)

def Child (u w : α) : Prop := w ∈ first u ∨ rest u w

/-- A forest below `u`, whose children are new or `seen`. -/
inductive Grown : α → List α → Forest α → Prop where
  | done {u : α} {seen : List α} (all : ∀ w, Child first rest u w → w ∈ seen) : Grown u seen .nil
  | enter {u w : α} {seen : List α} {below beside : Forest α} (next : Next first rest seen u w)
      (inner : Grown w (w :: seen) below)
      (outer : Grown u (below.nodes.reverse ++ w :: seen) beside) :
      Grown u seen (.cons w below beside)

/-- A path from `f` to `t` that keeps off a list of nodes. -/
def LeadsTo (off : List α) (f t : α) : Prop :=
  f ∉ off ∧ Relation.ReflTransGen (fun u w => Child first rest u w ∧ w ∉ off) f t

/-- The nodes after `u` on a path without repetition, of which `path` comes before: no child in
    order that is taken before a step leads to the end of the path. -/
inductive Way : List α → α → List α → Prop where
  | stay {path : List α} {u : α} : Way path u []
  | step {path ahead : List α} {u w : α} (child : Child first rest u w) (fresh : w ∉ path)
      (clear : ∀ f ∈ (first u).takeWhile (· ≠ w), ¬ LeadsTo first rest path f (ahead.getLastD w))
      (on : Way (w :: path) w ahead) : Way path u (w :: ahead)

end Growth

section Forests
variable {first : α → List α} {rest : α → α → Prop} {u w : α} {seen : List α}
  {forest : Forest α}

theorem Next.child (next : Next first rest seen u w) : Child first rest u w := by
  obtain ⟨-, found | ⟨-, other⟩⟩ := next
  · exact .inl (List.mem_of_find?_eq_some found)
  · exact .inr other

/-! What a forest holds -/

theorem Grown.fresh (grown : Grown first rest u seen forest) :
    forest.nodes.Nodup ∧ ∀ v ∈ forest.nodes, v ∉ seen := by
  induction grown with
  | done all => exact ⟨List.nodup_nil, fun v mem => absurd mem List.not_mem_nil⟩
  | @enter u w seen below beside next inner outer ih_below ih_beside =>
    obtain ⟨distinct, new⟩ := ih_below
    obtain ⟨distinct', new'⟩ := ih_beside
    simp only [List.mem_append, List.mem_reverse, List.mem_cons, not_or] at new new'
    simp only [Forest.nodes, List.nodup_cons, List.mem_append, not_or, List.nodup_append,
      List.mem_cons]
    refine ⟨⟨⟨fun mem => (new w mem).1 rfl, fun mem => (new' w mem).2.1 rfl⟩, distinct, distinct',
      ?_⟩, ?_⟩
    · rintro v mem _ mem' rfl
      exact (new' v mem').1 mem
    · rintro v (rfl | mem | mem)
      · exact next.1
      · exact (new v mem).2
      · exact (new' v mem).2.2

theorem Grown.covers (grown : Grown first rest u seen forest) {w : α}
    (child : Child first rest u w) : w ∈ seen ∨ w ∈ forest.nodes := by
  induction grown with
  | done all => exact .inl (all w child)
  | enter next inner outer ih_below ih_beside =>
    have there := ih_beside child
    simp only [List.mem_append, List.mem_reverse, List.mem_cons] at there
    simp only [Forest.nodes, List.mem_cons, List.mem_append]
    grind

theorem Grown.closed (grown : Grown first rest u seen forest) {v w : α} (mem : v ∈ forest.nodes)
    (child : Child first rest v w) : w ∈ seen ∨ w ∈ forest.nodes := by
  induction grown with
  | done all => cases mem
  | @enter u x seen below beside next inner outer ih_below ih_beside =>
    simp only [Forest.nodes, List.mem_cons, List.mem_append] at mem ⊢
    obtain rfl | here | there := mem
    · have covered := inner.covers child
      simp only [List.mem_cons] at covered
      grind
    · have covered := ih_below here
      simp only [List.mem_cons] at covered
      grind
    · have covered := ih_beside there
      simp only [List.mem_append, List.mem_reverse, List.mem_cons] at covered
      grind

omit [DecidableEq α] in
theorem LeadsTo.step {off : List α} {f v w : α} (leads : LeadsTo first rest off f v)
    (child : Child first rest v w) (fresh : w ∉ off) : LeadsTo first rest off f w :=
  ⟨leads.1, leads.2.tail ⟨child, fresh⟩⟩

omit [DecidableEq α] in
theorem LeadsTo.trans {off : List α} {f v w : α} (leads : LeadsTo first rest off f v)
    (on : LeadsTo first rest off v w) : LeadsTo first rest off f w := ⟨leads.1, leads.2.trans on.2⟩

theorem Grown.leads (grown : Grown first rest u seen forest) {off : List α} (kept : off ⊆ seen)
    (here : u ∉ off) {v : α} (mem : v ∈ forest.nodes) : LeadsTo first rest off u v := by
  induction grown with
  | done all => cases mem
  | @enter u w seen below beside next inner outer ih_below ih_beside =>
    have fresh : w ∉ off := fun held => next.1 (kept held)
    have down : LeadsTo first rest off u w := LeadsTo.step ⟨here, .refl⟩ next.child fresh
    simp only [Forest.nodes, List.mem_cons, List.mem_append] at mem
    obtain rfl | below | beside := mem
    · exact down
    · exact down.trans (ih_below (fun x held => List.mem_cons_of_mem _ (kept held)) fresh below)
    · refine ih_beside (fun x held => ?_) here beside
      exact List.mem_append_right _ (List.mem_cons_of_mem _ (kept held))

/-! Growing -/

section Finite
variable {nodes : List α} (listed : ∀ u w, Child first rest u w → w ∈ nodes)
include listed

/-- The nodes that are not seen yet. -/
def unseen (nodes seen : List α) : Nat := (nodes.filter (· ∉ seen)).length

omit listed in
theorem unseen_less {seen seen' : List α} (more : seen ⊆ seen') {w : α} (mem : w ∈ nodes)
    (new : w ∉ seen) (now : w ∈ seen') : unseen nodes seen' < unseen nodes seen := by
  have again : nodes.filter (· ∉ seen') = (nodes.filter (· ∉ seen)).filter (· ∉ seen') := by
    rw [List.filter_filter]
    refine List.filter_congr fun v _ => ?_
    by_cases held : v ∈ seen
    · simp [held, more held]
    · simp [held]
  rw [unseen, unseen, again]
  exact List.length_filter_lt_length_iff_exists.mpr ⟨w, by simp [mem, new], by simp [now]⟩

omit listed in
theorem next_exists (u : α) (seen : List α) :
    (∀ w, Child first rest u w → w ∈ seen) ∨ ∃ w, Next first rest seen u w := by
  by_cases all : ∀ w, Child first rest u w → w ∈ seen
  · exact .inl all
  · push Not at all
    obtain ⟨w, child, new⟩ := all
    cases found : (first u).find? (· ∉ seen) with
    | some f =>
      have unread := List.find?_some found
      exact .inr ⟨f, by simpa using unread, .inl found⟩
    | none =>
      have taken : ∀ f ∈ first u, f ∈ seen := by simpa using found
      exact .inr ⟨w, new, .inr ⟨taken, child.resolve_left fun mem => new (taken w mem)⟩⟩

theorem grown_exists (u : α) (seen : List α) : ∃ forest, Grown first rest u seen forest := by
  induction count : unseen nodes seen using Nat.strong_induction_on generalizing u seen with
  | _ n ih =>
    subst count
    obtain all | ⟨w, next⟩ := @next_exists _ _ first rest u seen
    · exact ⟨.nil, .done all⟩
    · have mem := listed u w next.child
      obtain ⟨below, inner⟩ := ih _ (unseen_less (List.subset_cons_self w seen) mem next.1
        List.mem_cons_self) w (w :: seen) rfl
      have more : seen ⊆ below.nodes.reverse ++ w :: seen := fun x held => by simp [held]
      obtain ⟨beside, outer⟩ := ih _ (unseen_less more mem next.1 (by simp)) u _ rfl
      exact ⟨_, .enter next inner outer⟩

end Finite

/-! Ways -/

/-- A search below the end of a path: what is seen and not on the path is finished with. -/
structure Underway (first : α → List α) (rest : α → α → Prop) (path seen : List α) : Prop where
  within : path ⊆ seen
  finished : ∀ v ∈ seen, v ∉ path → ∀ w, Child first rest v w → w ∈ seen

omit [DecidableEq α] in
theorem underway_start (start : α) : Underway first rest [start] [start] :=
  ⟨List.Subset.refl _, fun _ mem off => absurd mem off⟩

section Search
variable {path ahead : List α} (under : Underway first rest path seen)
include under

omit [DecidableEq α] in
theorem Underway.enter (w : α) : Underway first rest (w :: path) (w :: seen) := by
  refine ⟨List.cons_subset_cons w under.within, fun v mem off x child => ?_⟩
  obtain ⟨other, off⟩ := not_or.mp (mt List.mem_cons.mpr off)
  exact List.mem_cons_of_mem _
    (under.finished v ((List.mem_cons.mp mem).resolve_left other) off x child)

theorem Underway.leave {below : Forest α} (inner : Grown first rest w (w :: seen) below) :
    Underway first rest path (below.nodes.reverse ++ w :: seen) := by
  refine ⟨fun v held => by simp [under.within held], fun v mem off x child => ?_⟩
  simp only [List.mem_append, List.mem_reverse, List.mem_cons] at mem ⊢
  obtain here | rfl | old := mem
  · have closed := inner.closed here child
    simp only [List.mem_cons] at closed
    grind
  · have covered := inner.covers child
    simp only [List.mem_cons] at covered
    grind
  · exact .inr (.inr (under.finished v old off x child))

omit [DecidableEq α] in
theorem Underway.caught {f t : α} (old : f ∈ seen) (leads : LeadsTo first rest path f t) :
    t ∈ seen := by
  have both : t ∈ seen ∧ t ∉ path := by
    obtain ⟨off, steps⟩ := leads
    induction steps with
    | refl => exact ⟨old, off⟩
    | tail _ step ih => exact ⟨under.finished _ ih.1 ih.2 _ step.1, step.2⟩
  exact both.1

end Search

theorem Next.taken (next : Next first rest seen u w) :
    ∀ f ∈ (first u).takeWhile (· ≠ w), f ∈ seen := by
  intro f mem
  obtain ⟨new, found | ⟨all, -⟩⟩ := next
  · obtain ⟨-, before, after, split, seen_before⟩ := List.find?_eq_some_iff_append.mp found
    have passed : ∀ v ∈ before, v ∈ seen := fun v held => by simpa using seen_before v held
    have other : ∀ v ∈ before, decide (v ≠ w) = true := fun v held =>
      decide_eq_true fun same => new (same ▸ passed v held)
    rw [split, List.takeWhile_append_of_pos other] at mem
    exact passed f (by simpa using mem)
  · exact all f ((List.takeWhile_sublist _).subset mem)

/-- A new child that is not the next one stands behind the next one, in order. -/
theorem Child.behind_next (child : Child first rest u w) (new : w ∉ seen)
    (later : ¬ Next first rest seen u w) :
    ∃ f ∈ (first u).takeWhile (· ≠ w), Next first rest seen u f := by
  cases found : (first u).find? (· ∉ seen) with
  | none =>
    have taken : ∀ f ∈ first u, f ∈ seen := by simpa using found
    exact absurd ⟨new, .inr ⟨taken, child.resolve_left fun mem => new (taken w mem)⟩⟩ later
  | some f =>
    obtain ⟨unread, before, after, split, seen_before⟩ := List.find?_eq_some_iff_append.mp found
    have other : f ≠ w := by
      rintro rfl
      exact later ⟨new, .inl found⟩
    have passed : ∀ v ∈ before, decide (v ≠ w) = true := by
      intro v held
      refine decide_eq_true ?_
      rintro rfl
      exact new (by simpa using seen_before v held)
    refine ⟨f, ?_, by simpa using unread, .inl found⟩
    rw [split, List.takeWhile_append_of_pos passed, List.takeWhile_cons_of_pos (by simpa)]
    simp

/-- The way down to the deepest node of a forest. -/
theorem Grown.way (grown : Grown first rest u seen forest) {path : List α}
    (under : Underway first rest path seen) :
    ∃ ahead, Way first rest path u ahead ∧ ahead.length = forest.height ∧
      ∀ v ∈ ahead, v ∈ forest.nodes := by
  induction grown generalizing path with
  | done all => exact ⟨[], .stay, rfl, by simp⟩
  | @enter u w seen below beside next inner outer ih_below ih_beside =>
    obtain higher | deeper := le_total (below.height + 1) beside.height
    · obtain ⟨ahead, way, long, held⟩ := ih_beside (under.leave inner)
      exact ⟨ahead, way, long.trans (max_eq_right higher).symm,
        fun v mem => by simp [Forest.nodes, held v mem]⟩
    · obtain ⟨ahead, way, long, held⟩ := ih_below (under.enter w)
      refine ⟨w :: ahead, .step next.child (fun mem => next.1 (under.within mem)) ?_ way, ?_, ?_⟩
      · intro f before leads
        have old := under.caught (next.taken f before) leads
        obtain same | mem := List.mem_cons.mp (@List.getLastD_mem_cons _ ahead w)
        · exact next.1 (same ▸ old)
        · exact inner.fresh.2 _ (held _ mem) (List.mem_cons_of_mem _ old)
      · rw [List.length_cons, long]
        exact (max_eq_left deeper).symm
      · intro v mem
        obtain rfl | mem := List.mem_cons.mp mem
        · simp [Forest.nodes]
        · simp [Forest.nodes, held v mem]

theorem Way.fresh {path ahead : List α} (way : Way first rest path u ahead) :
    ∀ v ∈ ahead, v ∉ path := by
  induction way with
  | stay => simp
  | step child fresh clear on ih =>
    intro v mem
    obtain rfl | mem := List.mem_cons.mp mem
    · exact fresh
    · exact fun held => ih v mem (List.mem_cons_of_mem _ held)

theorem Way.leads {path ahead off : List α} (way : Way first rest path u ahead)
    (within : off ⊆ path) (here : u ∉ off) :
    ∀ v ∈ u :: ahead, LeadsTo first rest off v (ahead.getLastD u) := by
  induction way with
  | stay =>
    intro v mem
    obtain rfl := List.mem_singleton.mp mem
    exact ⟨here, .refl⟩
  | @step path ahead u w child fresh clear on ih =>
    have off_w : w ∉ off := fun held => fresh (within held)
    have later := ih (fun v held => List.mem_cons_of_mem _ (within held)) off_w
    intro v mem
    rw [List.getLastD_cons]
    obtain rfl | mem := List.mem_cons.mp mem
    · exact (LeadsTo.step ⟨here, .refl⟩ child off_w).trans (later w List.mem_cons_self)
    · exact later v mem

/-- Some search goes down the whole way. -/
theorem Way.grown {nodes : List α} (listed : ∀ u w, Child first rest u w → w ∈ nodes)
    {path ahead : List α} (way : Way first rest path u ahead)
    (under : Underway first rest path seen) (new : ∀ v ∈ ahead, v ∉ seen) :
    ∃ forest, Grown first rest u seen forest ∧ ahead.length ≤ forest.height := by
  induction way generalizing seen with
  | @stay path u =>
    obtain ⟨forest, grown⟩ := grown_exists listed u seen
    exact ⟨forest, grown, Nat.zero_le _⟩
  | @step path ahead u w child fresh clear on ih =>
    induction count : unseen nodes seen using Nat.strong_induction_on generalizing seen with
    | _ n ih_count =>
      subst count
      have new_w : w ∉ seen := new w List.mem_cons_self
      by_cases next : Next first rest seen u w
      · -- the search goes on along the way, then takes the other children
        have later : ∀ v ∈ ahead, v ∉ w :: seen := by
          intro v mem held
          obtain rfl | held := List.mem_cons.mp held
          · exact on.fresh v mem List.mem_cons_self
          · exact new v (List.mem_cons_of_mem _ mem) held
        obtain ⟨below, inner, high⟩ := ih (under.enter w) later
        obtain ⟨beside, outer⟩ := grown_exists listed u (below.nodes.reverse ++ w :: seen)
        exact ⟨_, .enter next inner outer, (Nat.succ_le_succ high).trans (le_max_left _ _)⟩
      · -- a child in order comes first, and leads to no node of the way
        obtain ⟨f, earlier, next_f⟩ := child.behind_next new_w next
        have new_f : f ∉ seen := next_f.1
        have off_f : f ∉ path := fun held => new_f (under.within held)
        obtain ⟨below, inner⟩ := grown_exists listed f (f :: seen)
        have missed : ∀ v ∈ w :: ahead, v ∉ f :: below.nodes := by
          intro v mem held
          have ends := on.leads (List.subset_cons_self w path) fresh v mem
          refine clear f earlier (LeadsTo.trans ?_ ends)
          obtain rfl | held := List.mem_cons.mp held
          · exact ⟨off_f, .refl⟩
          · exact inner.leads (fun x there => List.mem_cons_of_mem _ (under.within there)) off_f
              held
        have less : unseen nodes (below.nodes.reverse ++ f :: seen) < unseen nodes seen :=
          unseen_less (fun x held => by simp [held]) (listed u f next_f.child) new_f (by simp)
        have still : ∀ v ∈ w :: ahead, v ∉ below.nodes.reverse ++ f :: seen := by
          intro v mem held
          have apart := missed v mem
          simp only [List.mem_cons, List.mem_append, List.mem_reverse] at apart held
          have old := new v mem
          grind
        obtain ⟨beside, outer, high⟩ := ih_count _ less (under.leave inner) still rfl
        exact ⟨_, .enter next_f inner outer, high.trans (le_max_right _ _)⟩

/-! Orders of all children -/

def NoOther (_ _ : α) : Prop := False

section Ordered
variable {order : α → List α}

theorem Next.found (next : Next order NoOther seen u w) :
    (order u).find? (· ∉ seen) = some w := by
  obtain ⟨-, found | ⟨-, other⟩⟩ := next
  · exact found
  · cases other

theorem Grown.unique {forest' : Forest α} (grown : Grown order NoOther u seen forest)
    (grown' : Grown order NoOther u seen forest') : forest = forest' := by
  induction grown generalizing forest' with
  | done all =>
    cases grown' with
    | done all' => rfl
    | enter next inner outer => exact absurd (all _ next.child) next.1
  | enter next inner outer ih_below ih_beside =>
    cases grown' with
    | done all' => exact absurd (all' _ next.child) next.1
    | enter next' inner' outer' =>
      obtain rfl := Option.some.inj (next.found.symm.trans next'.found)
      obtain rfl := ih_below inner'
      obtain rfl := ih_beside outer'
      rfl

variable {others : α → List α} (split : ∀ u, order u = first u ++ others u)
  (listed : ∀ u w, w ∈ others u ↔ rest u w)
include split listed

omit [DecidableEq α] in
theorem ordered_child (u w : α) : Child order NoOther u w ↔ Child first rest u w := by
  simp [Child, NoOther, split, listed]

theorem Grown.loosen (grown : Grown order NoOther u seen forest) :
    Grown first rest u seen forest := by
  induction grown with
  | done all => exact .done fun w child => all w ((ordered_child split listed _ w).mpr child)
  | @enter u w seen below beside next inner outer ih_below ih_beside =>
    refine .enter ⟨next.1, ?_⟩ ih_below ih_beside
    have found := next.found
    rw [split, List.find?_append] at found
    cases here : (first u).find? (· ∉ seen) with
    | some f =>
      rw [here] at found
      exact .inl found
    | none =>
      rw [here, Option.none_or] at found
      exact .inr ⟨by simpa using here, (listed u w).mp (List.mem_of_find?_eq_some found)⟩

/-- Where the other children are sorted as a forest comes to them, it is the one that grows. -/
theorem Grown.ordered (pos : α → Nat)
    (sorted : ∀ u, (others u).Pairwise fun v w => pos v ≤ pos w)
    (grown : Grown first rest u seen forest)
    (ascending : forest.nodes.Pairwise fun v w => pos v < pos w) :
    Grown order NoOther u seen forest := by
  induction grown with
  | done all => exact .done fun w child => all w ((ordered_child split listed _ w).mp child)
  | @enter u w seen below beside next inner outer ih_below ih_beside =>
    have covers : ∀ v, Child first rest u v → v ∈ seen ∨ v ∈ (Forest.cons w below beside).nodes :=
      fun _ => (Grown.enter next inner outer).covers
    rw [Forest.nodes, List.pairwise_cons, List.pairwise_append] at ascending
    obtain ⟨least, ascending_below, ascending_beside, -⟩ := ascending
    refine .enter ⟨next.1, .inl ?_⟩ (ih_below ascending_below) (ih_beside ascending_beside)
    rw [split, List.find?_append]
    obtain ⟨new, found | ⟨all, other⟩⟩ := next
    · rw [found, Option.some_or]
    · have none_first : (first u).find? (· ∉ seen) = none := by simpa using all
      rw [none_first, Option.none_or]
      have held : w ∈ others u := (listed u w).mpr other
      cases found : (others u).find? (· ∉ seen) with
      | none => exact absurd (by simpa using new) (List.find?_eq_none.mp found w held)
      | some v =>
        -- what the order puts first is the first that the forest comes to
        obtain ⟨unread, before, after, place, old⟩ := List.find?_eq_some_iff_append.mp found
        have child : Child first rest u v :=
          .inr ((listed u v).mp (List.mem_of_find?_eq_some found))
        have passed : w ∉ before := fun mem => new (by simpa using old w mem)
        have behind : w = v ∨ w ∈ after := by
          rw [place, List.mem_append, List.mem_cons] at held
          exact held.resolve_left passed
        have ordered := sorted u
        rw [place, List.pairwise_append, List.pairwise_cons] at ordered
        have grown_v : v = w ∨ v ∈ below.nodes ++ beside.nodes :=
          List.mem_cons.mp ((covers v child).resolve_left (by simpa using unread))
        obtain rfl | behind := behind
        · rfl
        · obtain rfl | later := grown_v
          · rfl
          · exact absurd (ordered.2.1.1 w behind) (Nat.not_le.mpr (least v later))

end Ordered

end Forests

/-! The search -/

section Search
variable {edges : List (α × α)}

/-- The children of a node as they come from the stack. -/
def stacked (edges : List (α × α)) (u : α) : List α := (childrenOf edges u).reverse

theorem stacked_next {s : Found α} {u w : α} {taken todo : List α}
    (split : stacked edges u = taken ++ w :: todo) (old : ∀ v ∈ taken, v ∈ s.visited)
    (new : w ∉ s.visited) : Next (stacked edges) NoOther s.visited u w :=
  ⟨new, .inl (List.find?_eq_some_iff_append.mpr
    ⟨by simpa using new, taken, todo, split, fun v mem => by simpa using old v mem⟩)⟩

theorem run_grown {fuel : Nat} {s : Found α} {u : α} {hops : Nat} {taken todo : List α}
    {stack : List (α × Nat)} (split : stacked edges u = taken ++ todo)
    (old : ∀ v ∈ taken, v ∈ s.visited) (deep : hops ≤ s.depth)
    (enough : remaining edges s (todo.map (·, hops + 1) ++ stack) ≤ fuel) :
    ∃ forest fuel' s', Grown (stacked edges) NoOther u s.visited forest ∧
      run edges fuel s (todo.map (·, hops + 1) ++ stack) = run edges fuel' s' stack ∧
      fuel' ≤ fuel ∧ remaining edges s' stack ≤ fuel' ∧
      s'.visited = forest.nodes.reverse ++ s.visited ∧
      s'.depth = max s.depth (hops + forest.height) := by
  induction fuel using Nat.strong_induction_on generalizing s u hops taken todo stack with
  | _ fuel ih =>
    cases todo with
    | nil =>
      refine ⟨.nil, fuel, s, .done fun w child => ?_, rfl, le_rfl, enough, rfl, ?_⟩
      · obtain mem | none := child
        · rw [split, List.append_nil] at mem
          exact old w mem
        · cases none
      · exact (max_eq_left deep).symm
    | cons w todo =>
      obtain ⟨n, rfl⟩ : ∃ n, fuel = n + 1 := by
        refine Nat.exists_eq_succ_of_ne_zero fun none => ?_
        simp [none, remaining] at enough
      have split' : stacked edges u = (taken ++ [w]) ++ todo := by simp [split]
      rw [List.map_cons, List.cons_append] at enough ⊢
      by_cases seen : w ∈ s.visited
      · have old' : ∀ v ∈ taken ++ [w], v ∈ s.visited := by
          simpa [or_imp, forall_and, seen] using old
        have less : remaining edges s (todo.map (·, hops + 1) ++ stack) ≤ n := by
          simp only [remaining, List.length_cons] at enough ⊢
          omega
        obtain ⟨forest, fuel', s', grown, same, fewer, rest⟩ :=
          ih n (Nat.lt_succ_self n) split' old' deep less
        rw [run, if_pos seen]
        exact ⟨forest, fuel', s', grown, same, fewer.trans n.le_succ, rest⟩
      · have fewer := @remaining_visit _ _ edges s w (hops + 1) (todo.map (·, hops + 1) ++ stack)
          seen
        have turned : ((childrenOf edges w).map (·, hops + 1 + 1)).reverse =
            (stacked edges w).map (·, hops + 1 + 1) := List.map_reverse.symm
        rw [turned] at fewer
        obtain ⟨below, fuel₁, s₁, inner, same₁, fewer₁, enough₁, visited₁, depth₁⟩ :=
          @ih n (Nat.lt_succ_self n) (visit edges s w (hops + 1)) w (hops + 1) [] (stacked edges w)
            (todo.map (·, hops + 1) ++ stack) rfl (by simp) (by simp [visit]) (by omega)
        have old₁ : ∀ v ∈ taken ++ [w], v ∈ s₁.visited := by
          intro v mem
          rw [visited₁]
          refine List.mem_append_right _ ?_
          obtain mem | mem := List.mem_append.mp mem
          · exact List.mem_cons_of_mem _ (old v mem)
          · exact List.mem_cons.mpr (.inl (List.mem_singleton.mp mem))
        have deep₁ : hops ≤ s₁.depth := by
          rw [depth₁]
          omega
        obtain ⟨beside, fuel₂, s₂, outer, same₂, fewer₂, enough₂, visited₂, depth₂⟩ :=
          ih fuel₁ (by omega) split' old₁ deep₁ enough₁
        rw [visited₁] at outer
        have next := stacked_next split old seen
        refine ⟨.cons w below beside, fuel₂, s₂, .enter next inner outer, ?_, by omega, enough₂, ?_,
          ?_⟩
        · rw [run, if_neg seen, turned, same₁, same₂]
        · rw [visited₂, visited₁]
          simp [Forest.nodes, visit]
        · have entered : (visit edges s w (hops + 1)).depth = max s.depth (hops + 1) := by
            simp [visit]
          rw [depth₂, depth₁, Forest.height, entered]
          omega

/-- The search grows the forest of its own order, and its depth is the height of that. -/
theorem search_grown (edges : List (α × α)) (start : α) :
    ∃ forest, Grown (stacked edges) NoOther start [start] forest ∧
      forest.height = (search edges start).depth := by
  have fewer := @remaining_visit _ _ edges ⟨[], [], 0, 0⟩ start 0 [] List.not_mem_nil
  have all : remaining edges (⟨[], [], 0, 0⟩ : Found α) [(start, 0)] = edges.length + 1 := by
    simp [remaining, Nat.add_comm]
  have turned : ((childrenOf edges start).map (·, 0 + 1)).reverse =
      (stacked edges start).map (·, 0 + 1) := List.map_reverse.symm
  rw [turned] at fewer
  obtain ⟨forest, fuel', s', grown, same, -, -, -, depth⟩ :=
    @run_grown _ _ edges edges.length (visit edges ⟨[], [], 0, 0⟩ start 0) start 0 []
      (stacked edges start) [] rfl (by simp) (Nat.zero_le _) (by omega)
  have ended : run edges fuel' s' [] = s' := by cases fuel' <;> rfl
  refine ⟨forest, grown, ?_⟩
  rw [search, run, if_neg List.not_mem_nil, turned, same, ended, depth]
  simp [visit]

end Search

end DepthFirst
