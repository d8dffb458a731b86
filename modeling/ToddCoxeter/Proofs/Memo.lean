import ToddCoxeter.Datum
import ToddCoxeter.Proofs.Enumeration.LifeCycle
import ToddCoxeter.Proofs.Lists

/-! # What a memo remembers

Methods are called under names, of which several may share one, and now and then everything is forgotten.  A method
acts on a state beside the memo and does not use the memo itself.  To tell when methods are run, each run is noted in
a log that is a part of this state (`Memo.noted`), so that a note is made if and only if `Memo.fetch` runs the method.

The memo has the first value that the log has under a name since everything was forgotten
(`Memo.Session.Remembers`).  So a call gives this value and runs nothing, or there is none and the method is run once,
and no name has two values without a clearing in between.  That a method gave no value could be stored as well
(`Memo.Archive`) without anybody noticing.  All this is `Memo.Session.disciplined_after`.  The graph of an enumeration
is remembered in this way, so that the same holds of its runs (`Enumeration.disciplined_runs`). -/

namespace ToddCoxeter

namespace Memo

variable {ε α σ : Type}

/-- A method acts on a state.  It may give no value, or fail. -/
abbrev Method (ε α σ : Type) := σ → Except ε (Option α) × σ

/-! ### The log -/

/-- What happens: a method is run under a name and has this result, or everything is forgotten. -/
inductive Incident (ε α : Type) where
  | computed (name : String) (result : Except ε (Option α))
  | cleared

/-- The value that was computed, with its name. -/
def Incident.value? : Incident ε α → Option (String × α)
  | .computed name (.ok (some a)) => some (name, a)
  | _ => none

def Incident.clears : Incident ε α → Bool
  | .computed .. => false
  | .cleared => true

/-- The values that were computed, with their names and in their order. -/
def values (log : List (Incident ε α)) : List (String × α) := log.filterMap Incident.value?

/-- What happened since everything was forgotten. -/
def recent (log : List (Incident ε α)) : List (Incident ε α) :=
  (log.reverse.takeWhile fun incident => !incident.clears).reverse

theorem recent_concat_computed (log : List (Incident ε α)) (name : String) (result : Except ε (Option α)) :
    recent (log ++ [.computed name result]) = recent log ++ [.computed name result] := by
  simp [recent, Incident.clears]

theorem recent_concat_cleared (log : List (Incident ε α)) : recent (log ++ [.cleared]) = [] := by
  simp [recent, Incident.clears]

theorem mem_recent_of_not_mem {as bs : List (Incident ε α)} {name : String} {result : Except ε (Option α)}
    (hbs : .cleared ∉ bs) : .computed name result ∈ recent (as ++ .computed name result :: bs) := by
  have hkeep : ∀ incident ∈ bs.reverse, (!incident.clears) = true := by
    intro incident hmem
    cases incident with
    | computed => rfl
    | cleared => exact absurd (List.mem_reverse.1 hmem) hbs
  rw [recent, List.reverse_append, List.reverse_cons, List.append_assoc, List.takeWhile_append_of_pos hkeep]
  simp [Incident.clears]

theorem values_append (log log' : List (Incident ε α)) : values (log ++ log') = values log ++ values log' :=
  List.filterMap_append

theorem mem_values {log : List (Incident ε α)} {name : String} {a : α} :
    (name, a) ∈ values log ↔ .computed name (.ok (some a)) ∈ log := by
  rw [values, List.mem_filterMap]
  constructor
  · rintro ⟨incident, hmem, hvalue⟩
    cases incident with
    | cleared => simp [Incident.value?] at hvalue
    | computed name' result =>
        rcases result with e | _ | b <;> simp [Incident.value?] at hvalue
        obtain ⟨rfl, rfl⟩ := hvalue
        exact hmem
  · exact fun hmem => ⟨_, hmem, rfl⟩

/-- The first value under the name since everything was forgotten. -/
def firstValue (name : String) (log : List (Incident ε α)) : Option α := (values (recent log)).lookup name

theorem isSome_firstValue {name : String} {log : List (Incident ε α)} :
    (firstValue name log).isSome ↔ ∃ a, .computed name (.ok (some a)) ∈ recent log := by
  simp only [firstValue, List.lookup_isSome_iff, beq_iff_eq, ← mem_values]
  exact ⟨fun ⟨⟨_, a⟩, hmem, heq⟩ => ⟨a, heq ▸ hmem⟩, fun ⟨a, hmem⟩ => ⟨_, hmem, rfl⟩⟩

/-- A value counts only if there was none before under its name. -/
theorem firstValue_concat (key name : String) (log : List (Incident ε α)) (result : Except ε (Option α)) :
    firstValue key (log ++ [.computed name result]) =
      (firstValue key log).or (if key = name then result.toOption.join else none) := by
  rw [firstValue, recent_concat_computed, values_append, List.lookup_append, firstValue]
  congr 1
  rcases result with e | _ | a <;> simp [values, Incident.value?, Except.toOption, List.lookup_cons]
  by_cases hkey : key = name
  · simp [hkey]
  · simp [hkey, beq_false_of_ne hkey]

/-- No name gets a second value without a clearing in between. -/
def Spaced (log : List (Incident ε α)) : Prop :=
  ∀ as bs cs name a b, log = as ++ .computed name (.ok (some a)) :: bs ++ .computed name (.ok (some b)) :: cs →
    .cleared ∈ bs

theorem Spaced.nil : Spaced ([] : List (Incident ε α)) := fun as bs cs name a b h => by simp at h

theorem Spaced.concat {log : List (Incident ε α)} {incident : Incident ε α} (h : Spaced log)
    (hnew : ∀ name b, incident = .computed name (.ok (some b)) → firstValue name log = none) :
    Spaced (log ++ [incident]) := by
  intro as bs cs name a b heq
  have hlast := (exists_concat_eq_append_cons
    (P := fun as' _ => as' = as ++ .computed name (.ok (some a)) :: bs)).1 ⟨_, cs, heq, rfl⟩
  rcases hlast with ⟨rfl, hlog⟩ | ⟨as', cs', hlog, rfl⟩
  · by_contra hbs
    have hmem : .computed name (.ok (some a)) ∈ recent log := hlog ▸ mem_recent_of_not_mem hbs
    have hsome := isSome_firstValue.2 ⟨a, hmem⟩
    rw [hnew name b rfl] at hsome
    exact absurd hsome (by simp)
  · exact h as bs cs' name a b hlog

/-! ### Using a memo -/

theorem get?_insert (m : Memo α) (name key : String) (value : Option α) :
    (m.insert name value).get? key = if key = name then value.or (m.get? key) else m.get? key := by
  cases value with
  | none => simp [insert]
  | some a => simp [get?_insert_some]

/-- The method that notes each of its runs, with the result, at the end of the log. -/
def noted (name : String) (method : Method ε α σ) : Method ε α (σ × List (Incident ε α)) := fun s =>
  ((method s.1).1, (method s.1).2, s.2 ++ [.computed name (method s.1).1])

/-- Apart from the note the method does what it did. -/
theorem fetch_noted (m : Memo α) (name : String) (method : Method ε α σ) (s : σ) (log : List (Incident ε α)) :
    m.fetch name (noted name method) (s, log) = ((m.fetch name method s).1, (m.fetch name method s).2.1,
      (m.fetch name method s).2.2,
      if (m.get? name).isSome then log else log ++ [.computed name (method s).1]) := by
  cases hname : m.get? name with
  | some a => simp [fetch, hname]
  | none =>
      rcases hrun : method s with ⟨e | result, s'⟩ <;> simp [fetch, noted, hname, hrun]

/-- A call of a method under a name, or the request to forget everything. -/
inductive Request (ε α σ : Type) where
  | call (name : String) (method : Method ε α σ)
  | clear

/-- Is the request one to forget everything or a call under this name? -/
def Request.concerns (key : String) : Request ε α σ → Bool
  | .call name _ => name == key
  | .clear => true

/-- A memo in use, the state on which methods act, and the log. -/
structure Session (ε α σ : Type) where
  memo : Memo α
  state : σ
  log : List (Incident ε α)

namespace Session

variable {t u : Session ε α σ} {name key : String} {method : Method ε α σ} {a : α}

/-- Nothing has happened yet. -/
def new (s : σ) : Session ε α σ := ⟨.empty, s, []⟩

/-- The result of a request, and what it leaves behind. -/
def serve (t : Session ε α σ) : Request ε α σ → Except ε (Option α) × Session ε α σ
  | .call name method =>
    let (result, memo, state, log) := t.memo.fetch name (noted name method) (t.state, t.log)
    (result, ⟨memo, state, log⟩)
  | .clear => (.ok none, ⟨t.memo.clear, t.state, t.log ++ [.cleared]⟩)

/-- What several requests leave behind. -/
def after (t : Session ε α σ) (rs : List (Request ε α σ)) : Session ε α σ :=
  rs.foldl (fun t r => (t.serve r).2) t

theorem serve_call_of_some (h : t.memo.get? name = some a) : t.serve (.call name method) = (.ok (some a), t) := by
  simp only [serve, fetch, h]

theorem serve_call_of_none (h : t.memo.get? name = none) : t.serve (.call name method) =
    ((method t.state).1, ⟨t.memo.insert name (method t.state).1.toOption.join, (method t.state).2,
      t.log ++ [.computed name (method t.state).1]⟩) := by
  simp only [serve, fetch, h, noted]
  rcases hrun : method t.state with ⟨e | result, s⟩ <;> rfl

theorem get?_serve_of_ne (h : key ≠ name) :
    (t.serve (.call name method)).2.memo.get? key = t.memo.get? key := by
  cases hname : t.memo.get? name with
  | some a => rw [serve_call_of_some hname]
  | none => rw [serve_call_of_none hname, get?_insert, if_neg h]

/-! ### What is remembered -/

/-- The memo has the first values since everything was forgotten, and there are no more of them. -/
structure Remembers (t : Session ε α σ) : Prop where
  get?_eq : ∀ name, t.memo.get? name = firstValue name t.log
  spaced : Spaced t.log

theorem remembers_new (s : σ) : (new s : Session ε α σ).Remembers := ⟨fun _ => rfl, .nil⟩

theorem Remembers.serve (h : t.Remembers) (r : Request ε α σ) : (t.serve r).2.Remembers := by
  cases r with
  | clear =>
      refine ⟨fun name => ?_, h.spaced.concat fun _ _ hno => by simp at hno⟩
      simp only [Session.serve, get?_clear, firstValue, recent_concat_cleared]
      rfl
  | call name method =>
      cases hname : t.memo.get? name with
      | some a =>
          rw [serve_call_of_some hname]
          exact h
      | none =>
          rw [serve_call_of_none hname]
          refine ⟨fun key => ?_, h.spaced.concat fun key b heq => ?_⟩
          · rw [get?_insert, firstValue_concat, ← h.get?_eq]
            split_ifs with hkey
            · rw [hkey, hname, Option.none_or, Option.or_none]
            · rw [Option.or_none]
          · obtain rfl : name = key := (Incident.computed.inj heq).1
            rw [← h.get?_eq, hname]

theorem Remembers.after (h : t.Remembers) (rs : List (Request ε α σ)) : (t.after rs).Remembers := by
  induction rs generalizing t with
  | nil => exact h
  | cons r rs ih => exact ih (h.serve r)

/-! ### Names do not influence each other -/

/-- The two sessions do the same for calls under this name. -/
structure AlikeFor (key : String) (t u : Session ε α σ) : Prop where
  state_eq : u.state = t.state
  get?_eq : u.memo.get? key = t.memo.get? key

namespace AlikeFor

theorem serve_call (h : AlikeFor key t u) (method : Method ε α σ) :
    (u.serve (.call key method)).1 = (t.serve (.call key method)).1 ∧
      AlikeFor key (t.serve (.call key method)).2 (u.serve (.call key method)).2 := by
  cases hkey : t.memo.get? key with
  | some a =>
      rw [serve_call_of_some hkey, serve_call_of_some (h.get?_eq.trans hkey)]
      exact ⟨rfl, h⟩
  | none =>
      rw [serve_call_of_none hkey, serve_call_of_none (h.get?_eq.trans hkey), h.state_eq]
      exact ⟨rfl, rfl, by rw [get?_insert, get?_insert, h.get?_eq]⟩

/-- A call under another name may be left out if the method leaves the state alone. -/
theorem skip (h : AlikeFor key t u) (hname : name ≠ key) (hmethod : ∀ s, (method s).2 = s) :
    AlikeFor key (t.serve (.call name method)).2 u := by
  refine ⟨h.state_eq.trans ?_, h.get?_eq.trans (get?_serve_of_ne hname.symm).symm⟩
  cases hget : t.memo.get? name with
  | some a => rw [serve_call_of_some hget]
  | none => rw [serve_call_of_none hget, hmethod]

theorem after_filter {rs : List (Request ε α σ)} (h : AlikeFor key t u)
    (hrs : ∀ name method, .call name method ∈ rs → name ≠ key → ∀ s, (method s).2 = s) :
    AlikeFor key (t.after rs) (u.after (rs.filter (·.concerns key))) := by
  induction rs generalizing t u with
  | nil => exact h
  | cons r rs ih =>
      have hrest := fun name method hmem => hrs name method (List.mem_cons_of_mem r hmem)
      cases r with
      | clear => exact ih ⟨h.state_eq, rfl⟩ hrest
      | call name method =>
          by_cases hname : name = key
          · subst hname
            rw [List.filter_cons_of_pos (by simp [Request.concerns])]
            exact ih (h.serve_call method).2 hrest
          · rw [List.filter_cons_of_neg (by simpa [Request.concerns] using hname)]
            exact ih (h.skip hname (hrs name method List.mem_cons_self hname)) hrest

end AlikeFor

end Session

/-! ### Storing that there is no value -/

/-- The entries tell under each name what is remembered, where it may also be stored that there is no value. -/
def Stores (entries : List (String × Option α)) (m : Memo α) : Prop :=
  ∀ name, m.get? name = (entries.lookup name).join

/-- What `Memo.fetch` does, when it is also stored that a method gave no value. -/
def fetchStored (entries : List (String × Option α)) (name : String) (method : Method ε α σ) (s : σ) :
    Except ε (Option α) × List (String × Option α) × σ :=
  match (entries.lookup name).join with
  | some a => (.ok (some a), entries, s)
  | none =>
    match method s with
    | (.ok result, s) => (.ok result, setEntry name result entries, s)
    | (.error e, s) => (.error e, entries, s)

theorem Stores.fetch {entries : List (String × Option α)} {m : Memo α} (h : Stores entries m) (name : String)
    (method : Method ε α σ) (s : σ) :
    (fetchStored entries name method s).1 = (m.fetch name method s).1 ∧
      (fetchStored entries name method s).2.2 = (m.fetch name method s).2.2 ∧
      Stores (fetchStored entries name method s).2.1 (m.fetch name method s).2.1 := by
  unfold fetchStored Memo.fetch
  rw [h name]
  cases hname : (entries.lookup name).join with
  | some a => exact ⟨rfl, rfl, h⟩
  | none =>
      rcases method s with ⟨e | result, s'⟩
      · exact ⟨rfl, rfl, h⟩
      · refine ⟨rfl, rfl, fun key => ?_⟩
        dsimp only
        rw [get?_insert, lookup_setEntry]
        split_ifs with hkey
        · rw [hkey, h name, hname, Option.or_none, Option.join_some]
        · exact h key

/-- A session in which it is also stored that a method gave no value. -/
structure Archive (ε α σ : Type) where
  entries : List (String × Option α)
  state : σ
  log : List (Incident ε α)

namespace Archive

/-- Nothing has happened yet. -/
def new (s : σ) : Archive ε α σ := ⟨[], s, []⟩

/-- Is a value stored under the name? -/
def contains (u : Archive ε α σ) (name : String) : Bool := (u.entries.lookup name).join.isSome

/-- The result of a request, and what it leaves behind. -/
def serve (u : Archive ε α σ) : Request ε α σ → Except ε (Option α) × Archive ε α σ
  | .call name method =>
    let (result, entries, state, log) := fetchStored u.entries name (noted name method) (u.state, u.log)
    (result, ⟨entries, state, log⟩)
  | .clear => (.ok none, ⟨[], u.state, u.log ++ [.cleared]⟩)

/-- What several requests leave behind. -/
def after (u : Archive ε α σ) (rs : List (Request ε α σ)) : Archive ε α σ :=
  rs.foldl (fun u r => (u.serve r).2) u

/-- Apart from absent values the archive has what the session has. -/
structure Mirrors (u : Archive ε α σ) (t : Session ε α σ) : Prop where
  stores : Stores u.entries t.memo
  state_eq : u.state = t.state
  log_eq : u.log = t.log

variable {u : Archive ε α σ} {t : Session ε α σ}

theorem mirrors_new (s : σ) : (new s : Archive ε α σ).Mirrors (.new s) := ⟨fun _ => rfl, rfl, rfl⟩

theorem Mirrors.contains_eq (h : u.Mirrors t) (name : String) : u.contains name = t.memo.contains name := by
  rw [contains, Memo.contains, h.stores]

theorem Mirrors.serve (h : u.Mirrors t) (r : Request ε α σ) :
    (u.serve r).1 = (t.serve r).1 ∧ (u.serve r).2.Mirrors (t.serve r).2 := by
  cases r with
  | clear =>
      refine ⟨rfl, fun _ => rfl, h.state_eq, ?_⟩
      simp only [Archive.serve, Session.serve, h.log_eq]
  | call name method =>
      obtain ⟨hresult, hrest, hstores⟩ := h.stores.fetch name (noted name method) (t.state, t.log)
      simp only [Archive.serve, Session.serve, h.state_eq, h.log_eq]
      exact ⟨hresult, hstores, congrArg Prod.fst hrest, congrArg Prod.snd hrest⟩

theorem Mirrors.after (h : u.Mirrors t) (rs : List (Request ε α σ)) : (u.after rs).Mirrors (t.after rs) := by
  induction rs generalizing u t with
  | nil => exact h
  | cons r rs ih => exact ih (h.serve r).2

end Archive

namespace Session

variable {t : Session ε α σ}

/-! ### The discipline of a memo -/

/-- What calls do to this session. -/
structure Disciplined (t : Session ε α σ) : Prop where
  /-- The first value since everything was forgotten is given again, and nothing is run. -/
  serve_of_some : ∀ name a, firstValue name t.log = some a →
    ∀ method, t.serve (.call name method) = (.ok (some a), t)
  /-- Without such a value the method is run once, and its result is given. -/
  serve_of_none : ∀ name, firstValue name t.log = none → ∀ method, ∃ memo,
    t.serve (.call name method) = ((method t.state).1,
      ⟨memo, (method t.state).2, t.log ++ [.computed name (method t.state).1]⟩)
  /-- The names that are remembered are those with a value since everything was forgotten. -/
  contains_iff : ∀ name, t.memo.contains name ↔ ∃ a, .computed name (.ok (some a)) ∈ recent t.log
  /-- Until everything is forgotten, at most one computation under a name has a value. -/
  spaced : Spaced t.log
  /-- A call under one name leaves what is remembered under the others. -/
  get?_of_ne : ∀ name key, key ≠ name → ∀ method,
    (t.serve (.call name method)).2.memo.get? key = t.memo.get? key

theorem Remembers.disciplined (h : t.Remembers) : t.Disciplined where
  serve_of_some name a ha method := serve_call_of_some ((h.get?_eq name).trans ha)
  serve_of_none name hno method := ⟨_, serve_call_of_none ((h.get?_eq name).trans hno)⟩
  contains_iff name := by rw [contains, h.get?_eq, isSome_firstValue]
  spaced := h.spaced
  get?_of_ne name key hne method := get?_serve_of_ne hne

/-- Whatever is requested of a new memo, calls are disciplined afterwards.  If methods under other names leave the
state alone, then calls under these may be left out: calls under the name have the same results.  Nobody can tell
whether it is stored that a method gave no value: requests have the same results, methods are run at the same times,
and the same names are remembered. -/
theorem disciplined_after (s : σ) (rs : List (Request ε α σ)) :
    ((new s).after rs).Disciplined ∧
      (∀ key, (∀ name method, .call name method ∈ rs → name ≠ key → ∀ s, (method s).2 = s) →
        ((new s).after (rs.filter (·.concerns key))).memo.contains key = ((new s).after rs).memo.contains key ∧
        ∀ method, (((new s).after (rs.filter (·.concerns key))).serve (.call key method)).1 =
          (((new s).after rs).serve (.call key method)).1) ∧
      (∀ r, (((Archive.new s).after rs).serve r).1 = (((new s).after rs).serve r).1) ∧
      ((Archive.new s).after rs).state = ((new s).after rs).state ∧
      ((Archive.new s).after rs).log = ((new s).after rs).log ∧
      ∀ name, ((Archive.new s).after rs).contains name = ((new s).after rs).memo.contains name := by
  have h : ((new s).after rs).Remembers := (remembers_new s).after rs
  have hmirrors := (Archive.mirrors_new s).after rs
  refine ⟨h.disciplined, fun key hrs => ?_, fun r => (hmirrors.serve r).1, hmirrors.state_eq,
    hmirrors.log_eq, hmirrors.contains_eq⟩
  have hstart : AlikeFor key (new s : Session ε α σ) (new s) := ⟨rfl, rfl⟩
  have halike := hstart.after_filter hrs
  exact ⟨by rw [contains, halike.get?_eq, contains], fun method => (halike.serve_call method).1⟩

/-- The method that gives this value, or none, whatever the state is. -/
def give (value : Option α) : Method ε α σ := fun s => (.ok value, s)

/-- Calls without a value, with the value zero and with the empty text, which are values like all others. -/
def blanks : List (Request Empty Datum Unit) :=
  [.call "f" (give none), .call "f" (give (some (.integer 0))), .call "g" (give (some (.text "")))]

theorem disciplined_after_blanks :
    ((new ()).after blanks).log = [.computed "f" (.ok none), .computed "f" (.ok (some (.integer 0))),
      .computed "g" (.ok (some (.text "")))] ∧
      ((new ()).after blanks).serve (.call "f" (give (some (.text "a")))) =
        (.ok (some (.integer 0)), (new ()).after blanks) ∧
      ((new ()).after (blanks.filter (·.concerns "g"))).memo.contains "g" =
        ((new ()).after blanks).memo.contains "g" ∧
      ((new ()).after blanks).memo.contains "g" ∧
      ((Archive.new ()).after (blanks.take 1)).entries = [("f", none)] ∧
      ((Archive.new ()).after (blanks.take 1)).contains "f" =
        ((new ()).after (blanks.take 1)).memo.contains "f" := by
  obtain ⟨hdisciplined, hfilter, -⟩ := disciplined_after () blanks
  have hlog : ((new ()).after blanks).log = [.computed "f" (.ok none),
    .computed "f" (.ok (some (.integer 0))), .computed "g" (.ok (some (.text "")))] := rfl
  have hvalue : firstValue "f" ((new ()).after blanks).log = some (.integer 0) := rfl
  have hleave : ∀ name method, .call name method ∈ blanks → name ≠ "g" → ∀ s, (method s).2 = s :=
    fun _ _ _ _ _ => rfl
  refine ⟨hlog, hdisciplined.serve_of_some "f" _ hvalue _, (hfilter "g" hleave).1,
    (hdisciplined.contains_iff "g").2 ⟨.text "", ?_⟩, rfl,
    (disciplined_after () (blanks.take 1)).2.2.2.2.2 "f"⟩
  rw [hlog]
  simp [recent, Incident.clears]

end Session

end Memo

/-! ### Remembered graphs -/

namespace Enumeration

variable {e : Enumeration}

/-- Computing the graph, as a method of an enumeration. -/
def computeGraph : Memo.Method Fault Graph Enumeration := fun e =>
  (e.compute.1.outcome.map some, e.compute.2)

/-- What is remembered has no part in computing the graph. -/
theorem compute_with_memo (e : Enumeration) (m : Memo Graph) :
    { e with memo := m }.compute = (e.compute.1, { e.compute.2 with memo := m }) := by
  unfold compute
  rcases e.table.enumerate e.presentation with ⟨fault | _, t⟩
  · rfl
  · rcases hclose : t.close e.presentation.generators with ⟨fault | graph, t'⟩ <;> simp only [hclose]

theorem fetch_runKey (e : Enumeration) (m : Memo Graph) :
    e.memo.fetch runKey computeGraph { e with memo := m } =
      (e.run.1.outcome.map some, e.run.2.memo, { e.run.2 with memo := m }) := by
  have hmemo := e.memo_compute
  unfold run Memo.fetch computeGraph
  rw [compute_with_memo]
  cases e.memo.get? runKey with
  | some g => rfl
  | none =>
      rcases hcompute : e.compute with ⟨⟨log, fault | g⟩, e'⟩ <;> rw [hcompute] at hmemo <;>
        simp only [Except.map, ← hmemo]

/-- What is requested of the memo of an enumeration: a run calls for the graph, and questions call for nothing. -/
def Request.call? : Request → Option (Memo.Request Fault Graph Enumeration)
  | .run => some (.call runKey computeGraph)
  | .forget => some .clear
  | .ask _ => none

/-- The session is that of the enumeration. -/
structure Follows (e : Enumeration) (t : Memo.Session Fault Graph Enumeration) : Prop where
  memo_eq : t.memo = e.memo
  state_eq : t.state = { e with memo := t.state.memo }

variable {t : Memo.Session Fault Graph Enumeration}

theorem Follows.serve_run (h : e.Follows t) :
    (t.serve (.call runKey computeGraph)).1 = e.run.1.outcome.map some ∧
      e.run.2.Follows (t.serve (.call runKey computeGraph)).2 := by
  have hfetch := e.fetch_runKey t.state.memo
  simp only [Memo.Session.serve, Memo.fetch_noted, h.memo_eq]
  rw [h.state_eq, hfetch]
  exact ⟨rfl, rfl, rfl⟩

theorem Follows.afterAll (h : e.Follows t) (rs : List Request) :
    (e.afterAll rs).Follows (t.after (rs.filterMap Request.call?)) := by
  induction rs generalizing e t with
  | nil => exact h
  | cons r rs ih =>
      cases r with
      | run => exact ih h.serve_run.2
      | forget => exact ih ⟨rfl, h.state_eq⟩
      | ask a => exact ih h

/-- Runs of an enumeration are disciplined calls, whatever is requested of it: the graph is known exactly if one was
computed since it was last forgotten, it is then given again, and no two are computed without forgetting the
first. -/
theorem disciplined_runs (he : e.memo = .empty) (rs : List Request) :
    ∃ t : Memo.Session Fault Graph Enumeration, t.Disciplined ∧ (e.afterAll rs).Follows t ∧
      t = (Memo.Session.new e).after (rs.filterMap Request.call?) ∧
      (t.serve (.call runKey computeGraph)).1 = (e.afterAll rs).run.1.outcome.map some ∧
      t.memo.contains runKey = (e.afterAll rs).isComputed := by
  have hstart : e.Follows (Memo.Session.new e) := ⟨he.symm, rfl⟩
  have hfollows := hstart.afterAll rs
  refine ⟨_, ((Memo.Session.remembers_new e).after _).disciplined, hfollows, rfl, hfollows.serve_run.1, ?_⟩
  rw [hfollows.memo_eq, isComputed]

end Enumeration

end ToddCoxeter
