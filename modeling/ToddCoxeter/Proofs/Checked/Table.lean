import ToddCoxeter.Enumeration.Run
import ToddCoxeter.Proofs.Enumeration.Completion

/-! # Operations that check every access

The operations on tables read the parent of a node and the row of a live node in many places, and give
something even where there is none.  Here each of them has a second version that gives nothing as soon as
a parent or a row that it reads is missing: `Forest.find?` for `Forest.find`, `Table.step?` for
`Table.step`, and so on.  The loop over the passes, `Table.collapse?`, goes by the numbers that the passes
report, and gives nothing if a pass reports a drop although no node has been dropped.

On a well-formed table, asked about nodes that were made, both versions agree. -/

namespace ToddCoxeter

namespace Forest

variable {f : Forest} {i r : ℕ}

/-- The root of the tree that holds the node, if each parent on the way to it is there. -/
def root? (f : Forest) (i : ℕ) : Option ℕ :=
  match f.parent[i]? with
  | some p => if p = i then some i else if p < i then f.root? p else none
  | none => none
termination_by i

/-- Lets the nodes on the way point to the root, if each parent on the way is there. -/
def compress? (f : Forest) (r i : ℕ) : Option Forest :=
  match f.parent[i]? with
  | some p => if p = r then some f else if p < i then (f.link i r).compress? r p else none
  | none => none
termination_by i

/-- The root of the node's tree and the forest with a shorter way to it. -/
def find? (f : Forest) (i : ℕ) : Option (ℕ × Forest) := do
  let r ← f.root? i
  let f ← f.compress? r i
  return (r, f)

/-- The roots of several nodes, found one after the other. -/
def findAll? (f : Forest) : List ℕ → Option (List ℕ × Forest)
  | [] => some ([], f)
  | i :: is => do
    let (r, f) ← f.find? i
    let (rs, f) ← f.findAll? is
    return (r :: rs, f)

theorem Descending.root?_eq (hf : f.Descending) (hi : i < f.size) : f.root? i = some (f.root i) := by
  fun_induction Forest.root? f i with
  | case1 i hp => rw [root_of_forall_le fun q hq => by rw [hp, Option.some.injEq] at hq; omega]
  | case2 i p hp hne hlt ih => rw [root_of_lt hp hlt, ih (hlt.trans hi)]
  | case3 i p hp hne hnlt => exact absurd (hf i p hp) (by omega)
  | case4 i hp => exact absurd (Array.getElem?_eq_none_iff.1 hp) (Nat.not_le.2 hi)

theorem Descending.compress?_eq (hf : f.Descending) (hi : i < f.size) (h : f.root i = r) :
    f.compress? r i = some (f.compress r i) := by
  fun_induction Forest.compress? f r i with
  | case1 f i hp =>
      rw [Forest.compress, hp]
      simp
  | case2 f i p hp hne hlt ih =>
      have hroot : f.root p = r := by rw [← h, root_of_lt hp hlt]
      have hr : f.root r = r := by rw [← h, root_root]
      have hri : r < i := by
        have := root_le f p
        omega
      have hlink := root_link_of_root_eq hri (h.trans hr.symm) p
      rw [Forest.compress, hp, ih (hf.link hri.le) (by rw [size_link]; omega) (hlink.trans hroot)]
      exact congrArg some (if_pos ⟨hlt, hne⟩).symm
  | case3 f i p hp hne hnlt =>
      have hle := hf i p hp
      obtain rfl : p = i := by omega
      refine absurd ?_ hne
      rw [← h, root_of_forall_le fun q hq => by rw [hp, Option.some.injEq] at hq; omega]
  | case4 f i hp => exact absurd (Array.getElem?_eq_none_iff.1 hp) (Nat.not_le.2 hi)

theorem Descending.find?_eq (hf : f.Descending) (hi : i < f.size) : f.find? i = some (f.find i) := by
  simp only [find?, hf.root?_eq hi, hf.compress?_eq hi rfl, Option.bind_eq_bind, Option.bind_some]
  rfl

theorem Descending.findAll?_eq (hf : f.Descending) {is : List ℕ} (hi : ∀ i ∈ is, i < f.size) :
    f.findAll? is = some (f.findAll is) := by
  induction is generalizing f with
  | nil => rfl
  | cons i is ih =>
      have hfirst := hf.find?_eq (hi i List.mem_cons_self)
      have hrest := ih (f := (f.find i).2) ((f.sameRoots_find i).descending hf) fun j hj => by
        rw [size_find]
        exact hi j (List.mem_cons_of_mem _ hj)
      unfold findAll?
      rw [hfirst]
      simp only [Option.bind_eq_bind, Option.bind_some, hrest]
      rfl

end Forest

namespace Table

variable {t : Table} {i j : ℕ} {x : Letter}

/-! ### Finding nodes and following letters -/

/-- The node that stands for the given one. -/
def find? (t : Table) (i : ℕ) : Option (ℕ × Table) := do
  let (r, forest) ← t.forest.find? i
  return (r, { t with forest })

/-- The row of a live node. -/
def row? (t : Table) (i : ℕ) : Option Row := t.rows.get? i

/-- The live nodes to which the letter leads from the node. -/
def neighbours? (t : Table) (i : ℕ) (x : Letter) : Option (List ℕ × Table) := do
  let (r, t) ← t.find? i
  let row ← t.row? r
  let (ends, forest) ← t.forest.findAll? (row.farEnds x)
  let _ ← ends.mapM t.row?
  return (ends.eraseDups, { t with forest })

/-- The node to which the letter leads along the first edge for it, or a new one. -/
def step? (t : Table) (i : ℕ) (x : Letter) : Option (Attempt CapacityFault ℕ) := do
  let (r, t) ← t.find? i
  let row ← t.row? r
  match row.farEnds x with
  | [] => return t.define r x
  | j :: _ =>
    let (s, t) ← t.find? j
    let _ ← t.row? s
    return (.ok s, t)

/-- Follows several letters from the same node. -/
def stepAll? (t : Table) (i : ℕ) : List Letter → Option (Attempt CapacityFault Unit)
  | [] => some (.ok (), t)
  | x :: xs => do
    match ← t.step? i x with
    | (.error fault, t) => return (.error fault, t)
    | (.ok _, t) => t.stepAll? i xs

/-- The node to which the word leads from the node. -/
def trace? (t : Table) (i : ℕ) : Word → Option (Attempt CapacityFault ℕ)
  | [] => do
    let (r, t) ← t.find? i
    let _ ← t.row? r
    return (.ok r, t)
  | x :: w => do
    match ← t.step? i x with
    | (.error fault, t) => return (.error fault, t)
    | (.ok j, t) => t.trace? j w

namespace WellFormed

variable (h : t.WellFormed)
include h

theorem find?_eq (hi : i < t.forest.size) : t.find? i = some (t.find i) := by
  simp only [Table.find?, h.descending.find?_eq hi, Option.bind_eq_bind, Option.bind_some]
  rfl

omit h in
theorem row?_eq (hi : t.contains i) : t.row? i = some (t.row i) :=
  Register.get?_eq_some_getD hi _

theorem lt_of_mem_farEnds (hi : t.contains i) (hj : j ∈ (t.row i).farEnds x) :
    j < t.forest.size := by
  obtain ⟨e, he, -, -, rfl⟩ := (h.mem_farEnds hi x).1 hj
  exact h.side_lt e he _

theorem contains_root_of_mem_farEnds (hi : t.contains i) (hj : j ∈ (t.row i).farEnds x) :
    t.contains (t.root j) := h.contains_root (h.lt_of_mem_farEnds hi hj)

theorem contains_root_find (hi : i < t.forest.size) : (t.find i).2.contains (t.root i) := by
  rw [(t.reshaped_find i).contains_eq]
  exact h.contains_root hi

theorem neighbours?_eq (hi : i < t.forest.size) : t.neighbours? i x = some (t.neighbours i x) := by
  have hu := h.reshaped (t.reshaped_find i)
  have hroot := h.contains_root_find hi
  have hends := hu.descending.findAll?_eq fun j (hj : j ∈ _) => hu.lt_of_mem_farEnds (x := x) hroot hj
  have hrows : ((t.find i).2.forest.findAll (((t.find i).2.row (t.root i)).farEnds x)).1.mapM
      (t.find i).2.row? = some _ := mapM_eq_some fun j hj => by
    rw [Forest.fst_findAll] at hj
    obtain ⟨k, hk, rfl⟩ := List.mem_map.1 hj
    exact row?_eq (hu.contains_root_of_mem_farEnds hroot hk)
  simp only [neighbours?, h.find?_eq hi, Option.bind_eq_bind, Option.bind_some, fst_find,
    row?_eq hroot, hends, hrows]
  rfl

theorem step?_eq (hi : i < t.forest.size) : t.step? i x = some (t.step i x) := by
  have hu := h.reshaped (t.reshaped_find i)
  have hroot := h.contains_root_find hi
  rw [step_eq, step?, h.find?_eq hi]
  simp only [Option.bind_eq_bind, Option.bind_some, fst_find, row?_eq hroot]
  cases hends : ((t.find i).2.row (t.root i)).farEnds x with
  | nil => rfl
  | cons j js =>
      have hj : j ∈ ((t.find i).2.row (t.root i)).farEnds x := hends ▸ List.mem_cons_self
      have hj' : ((t.find i).2.find j).2.contains ((t.find i).2.root j) := by
        rw [((t.find i).2.reshaped_find j).contains_eq]
        exact hu.contains_root_of_mem_farEnds hroot hj
      simp only [hu.find?_eq (hu.lt_of_mem_farEnds hroot hj), Option.bind_some, fst_find,
        row?_eq hj']
      rfl

theorem stepAll?_eq (hi : i < t.forest.size) {xs : List Letter} :
    t.stepAll? i xs = some (t.stepAll i xs) := by
  induction xs generalizing t with
  | nil => rfl
  | cons x xs ih =>
      have hstep := h.step_yields (L := fun _ => True) (J := fun _ _ _ => False) hi (x := x) trivial
      unfold stepAll? stepAll
      rw [h.step?_eq hi]
      rcases hstep' : t.step i x with ⟨fault | j, u⟩ <;> rw [hstep'] at hstep
      · rfl
      · exact ih (h.moves hstep.1) ((h.grows_moves hstep.1).lt_size hi)

theorem trace?_eq (hi : i < t.forest.size) {w : Word} : t.trace? i w = some (t.trace i w) := by
  induction w generalizing t i with
  | nil =>
      unfold trace?
      rw [h.find?_eq hi]
      simp only [Option.bind_eq_bind, Option.bind_some, fst_find, row?_eq (h.contains_root_find hi)]
      rfl
  | cons x w ih =>
      have hstep := h.step_yields (L := fun _ => True) (J := fun _ _ _ => False) hi (x := x) trivial
      unfold trace? trace
      rw [h.step?_eq hi]
      rcases hstep' : t.step i x with ⟨fault | j, u⟩ <;> rw [hstep'] at hstep
      · rfl
      · have hu := h.moves hstep.1
        exact ih hu (hu.lt_of_contains (hu.contains_of_leads hstep.2.2).2)

end WellFormed

/-! ### Identifying nodes -/

/-- Makes two nodes one. -/
def identify? (t : Table) (a b : ℕ) : Option (ℕ × Table) := do
  let (ra, t) ← t.find? a
  let (rb, t) ← t.find? b
  if ra = rb then return (ra, t)
  else
    let _ ← t.row? (min ra rb)
    let _ ← t.row? (max ra rb)
    return (min ra rb, t.absorb (min ra rb) (max ra rb))

/-- Identifies each of the nodes that is not `kept` with `kept`, and counts them. -/
def identifyAll? (t : Table) (kept : ℕ) : List ℕ → Option (ℕ × Table)
  | [] => some (0, t)
  | i :: is =>
    if i = kept then t.identifyAll? kept is
    else do
      let (_, t) ← t.identify? kept i
      let (n, t) ← t.identifyAll? kept is
      return (n + 1, t)

/-- Identifies the nodes to which the letter leads from a node, if that is alive. -/
def sweepLetter? (t : Table) (i : ℕ) (x : Letter) : Option (ℕ × Table) :=
  if t.contains i then do
    match ← t.neighbours? i x with
    | ([], t) => return (0, t)
    | (j :: js, t) => t.identifyAll? (js.foldl min j) (j :: js)
  else return (0, t)

/-- Does the same for several letters at a node. -/
def sweepNode? (t : Table) (i : ℕ) : List Letter → Option (ℕ × Table)
  | [] => some (0, t)
  | x :: xs => do
    let (m, t) ← t.sweepLetter? i x
    let (n, t) ← t.sweepNode? i xs
    return (m + n, t)

/-- Does the same for several nodes. -/
def sweepNodes? (t : Table) (letters : List Letter) : List ℕ → Option (ℕ × Table)
  | [] => some (0, t)
  | i :: is => do
    let (m, t) ← t.sweepNode? i letters
    let (n, t) ← t.sweepNodes? letters is
    return (m + n, t)

/-- Passes over the live nodes until one of them reports no drop.  A pass that reports one has to have
dropped a node. -/
def collapse? (t : Table) (gens : List String) : Option Table :=
  match t.sweepNodes? (Letter.signed gens) t.ids with
  | none => none
  | some (n, after) =>
    if n = 0 then some after
    else if after.live < t.live then after.collapse? gens
    else none
termination_by t.live

namespace WellFormed

variable (h : t.WellFormed)
include h

theorem identify?_eq {a b : ℕ} (ha : a < t.forest.size) (hb : b < t.forest.size) :
    t.identify? a b = some (t.identify a b) := by
  have hr := t.reshaped_find a
  have hra := h.contains_root_find ha
  rcases hfa : t.find a with ⟨ra, u⟩
  obtain rfl : t.root a = ra := congrArg Prod.fst hfa
  rw [hfa] at hr hra
  have hb' : b < u.forest.size := hr.size_eq ▸ hb
  have hr' := u.reshaped_find b
  have hrb := (h.reshaped hr).contains_root_find hb'
  rcases hfb : u.find b with ⟨rb, v⟩
  obtain rfl : u.root b = rb := congrArg Prod.fst hfb
  rw [hfb] at hr' hrb
  have hva : v.contains (t.root a) := (hr'.contains_eq _).trans hra
  unfold identify? identify
  rw [h.find?_eq ha, hfa]
  simp only [Option.bind_eq_bind, Option.bind_some, (h.reshaped hr).find?_eq hb', hfb]
  split_ifs
  · rfl
  · rw [row?_eq (contains_min hva hrb), row?_eq (contains_max hva hrb)]
    rfl

theorem identifyAll?_eq {kept : ℕ} (hk : kept < t.forest.size) {js : List ℕ}
    (hjs : ∀ j ∈ js, j < t.forest.size) :
    t.identifyAll? kept js = some (t.identifyAll kept js) := by
  induction js generalizing t with
  | nil => rfl
  | cons j js ih =>
      by_cases hj : j = kept
      · subst hj
        unfold identifyAll?
        rw [if_pos rfl, identifyAll_cons_self]
        exact ih h hk fun i hi => hjs i (List.mem_cons_of_mem _ hi)
      · have hlt := hjs j List.mem_cons_self
        have hm := (h.identify_moves (L := fun _ => False) (J := fun _ _ _ => True) hk hlt
          fun _ _ => trivial).1
        have hg := h.grows_moves hm
        have hrest := ih (h.moves hm) (hg.lt_size hk) fun i hi =>
          hg.lt_size (hjs i (List.mem_cons_of_mem _ hi))
        unfold identifyAll?
        rw [if_neg hj, identifyAll_cons_of_ne hj, h.identify?_eq hk hlt]
        simp only [Option.bind_eq_bind, Option.bind_some, hrest]
        rfl

theorem sweepLetter?_eq (i : ℕ) (x : Letter) :
    t.sweepLetter? i x = some (t.sweepLetter i x) := by
  unfold sweepLetter? sweepLetter
  split_ifs with hi
  · have hlt := h.lt_of_contains hi
    have hr := t.reshaped_neighbours i x
    have hends : ∀ j ∈ (t.neighbours i x).1, j < (t.neighbours i x).2.forest.size := by
      intro j hj
      rw [hr.size_eq]
      exact h.lt_of_contains (h.contains_of_leads ((h.mem_neighbours hlt x).1 hj)).2
    rw [h.neighbours?_eq hlt]
    rcases hnb : t.neighbours i x with ⟨_ | ⟨j, js⟩, u⟩ <;> rw [hnb] at hr hends
    · rfl
    · have hmin := (List.min?_eq_some_iff.1 (List.min?_cons' : (j :: js).min? = _)).1
      exact (h.reshaped hr).identifyAll?_eq (hends _ hmin) hends
  · rfl

theorem sweepNode?_eq {gens : List String} (i : ℕ) {xs : List Letter}
    (hx : ∀ x ∈ xs, x.gen ∈ gens) : t.sweepNode? i xs = some (t.sweepNode i xs) := by
  induction xs generalizing t with
  | nil => rfl
  | cons x xs ih =>
      have hfirst := h.sweepLetter_swept i (hx x List.mem_cons_self)
      have hrest := ih (h.moves hfirst.moves) fun y hy => hx y (List.mem_cons_of_mem _ hy)
      unfold sweepNode?
      rw [h.sweepLetter?_eq]
      simp only [Option.bind_eq_bind, Option.bind_some, hrest]
      rfl

theorem sweepNodes?_eq {gens : List String} {xs : List Letter} (hx : ∀ x ∈ xs, x.gen ∈ gens)
    (is : List ℕ) : t.sweepNodes? xs is = some (t.sweepNodes xs is) := by
  induction is generalizing t with
  | nil => rfl
  | cons i is ih =>
      have hrest := ih (h.moves (h.sweepNode_swept i hx).moves)
      unfold sweepNodes?
      rw [h.sweepNode?_eq i hx]
      simp only [Option.bind_eq_bind, Option.bind_some, hrest]
      rfl

theorem collapse?_eq (gens : List String) : t.collapse? gens = some (t.collapse gens) := by
  induction hn : t.live using Nat.strongRecOn generalizing t with
  | ind n ih =>
      have hswept := h.sweep_swept gens
      have hcount := hswept.count
      have hsweep : t.sweepNodes? (Letter.signed gens) t.ids = some (t.sweep gens) :=
        h.sweepNodes?_eq (fun x => Letter.mem_signed.1) t.ids
      unfold collapse?
      rw [h.collapse_eq, hsweep]
      simp only
      by_cases h0 : (t.sweep gens).1 = 0
      · rw [if_pos h0, if_neg (by omega)]
      · rw [if_neg h0, if_pos (by omega), if_pos (by omega)]
        exact ih _ (by omega) (h.moves hswept.moves) rfl

end WellFormed

end Table

end ToddCoxeter
