import RecordTree.Proofs.Benchmark.Report
import RecordTree.Proofs.Interval.Twin

/-!
# `RecordTree.Proofs.Benchmark.CachedRun`: a run on cached trees is a run on plain ones

The two kinds of trees differ where a walk begins and in what a deletion reads. `Bench.plain` takes
the cache away from the state of a run. Going on from there is then the same as going on with the
cache and taking it away in the end, for one action (`act_plain`), for all of them
(`actAll_plain`), for a stage (`Stage.Twin`), and for the stages one after another
(`through_plain`).

An insertion does not look at the cache, so its equation holds in all states. A deletion that is due
to move the cache reads the next node first, and an ascending walk begins at the cached node. Their
equations take a sound state, in which the next node can be read and the cache is right.

* `cached_run_eq`: with the flag and without it, a run makes the same report, through the same
  states.
-/

set_option autoImplicit false

namespace RecordTree

section Runs

variable {ρ σ α β : Type}

/-- A mapped update runs like the update itself, and its result is mapped. -/
theorem Update.run_map (f : α → β) (u : Update ρ σ α) (s : Store ρ) (x : σ) :
    (f <$> u) s x = (u s x).map fun out => ((f out.1.1, out.1.2), out.2) :=
  rfl

/-- Two updates in sequence run one after the other, the second one on what the first one left. -/
theorem Update.run_bind (u : Update ρ σ α) (f : α → Update ρ σ β) (s : Store ρ) (x : σ) :
    (u >>= f) s x = (u s x >>= fun out => f out.1.1 out.1.2 out.2) :=
  rfl

/-- After a reading, the same is done if it is the same for what was read. -/
theorem Update.read_bind_congr {reading : Store ρ → Except Fault α} {f g : α → Update ρ σ β}
    {s : Store ρ} {x : σ} (h : ∀ a, reading s = .ok a → f a s x = g a s x) :
    (read reading >>= f) s x = (read reading >>= g) s x := by
  rw [run_bind, run_bind, read]
  cases hread : reading s with
  | error fault => rfl
  | ok a => exact h a hread

end Runs

namespace Benchmark

variable {τ γ : Type}

/-! ### The flag -/

section Flag

/-- A flag in front of the words is read first, and does not change how the others are read. -/
theorem readWords_cached (words : List String) :
    readWords ("--cached" :: words) = (.cached :: ·) <$> readWords words := by
  have hword : optionWord? "--cached" = some ("cached", none) := by decide +kernel
  rw [readWords]
  · simp only [hword]
  · simp
  · simp

/-- Numbers are set beside the flag, so it may as well be set before them. -/
theorem Options.foldl_set_cached (numbers : List (Setting × Nat)) (o : Options) :
    numbers.foldl (fun o (setting, n) => o.set n setting) { o with cached := true } =
      { numbers.foldl (fun o (setting, n) => o.set n setting) o with cached := true } := by
  induction numbers generalizing o with
  | nil => rfl
  | cons number numbers ih =>
    have hset : Options.set { o with cached := true } number.2 number.1 =
        { o.set number.2 number.1 with cached := true } := by
      cases number.1 <;> rfl
    show List.foldl _ (Options.set { o with cached := true } number.2 number.1) numbers = _
    rw [hset, ih]
    rfl

/-- Setting numbers leaves the flag as it is. -/
theorem Options.cached_foldl_set (numbers : List (Setting × Nat)) (o : Options) :
    (numbers.foldl (fun o (setting, n) => o.set n setting) o).cached = o.cached := by
  induction numbers generalizing o with
  | nil => rfl
  | cons number numbers ih =>
    have hset : (o.set number.2 number.1).cached = o.cached := by cases number.1 <;> rfl
    exact (ih _).trans hset

/-- Without the flag, a command line can be given it in front, and says nothing else than before. -/
theorem Options.parse_cached {words : List String} {o : Options}
    (h : parse words = .ok { o with cached := false }) :
    parse ("--cached" :: words) = .ok { o with cached := true } := by
  obtain ⟨given, hgiven⟩ : ∃ given, readWords words = .ok given := by
    cases hgiven : readWords words with
    | ok given => exact ⟨given, rfl⟩
    | error e => simp [parse, hgiven, bind, Except.bind] at h
  obtain ⟨numbers, hnumbers⟩ : ∃ numbers, readNumbers given = .ok numbers := by
    cases hnumbers : readNumbers given with
    | ok numbers => exact ⟨numbers, rfl⟩
    | error e => simp [parse, hgiven, hnumbers, bind, Except.bind] at h
  have hgiven' : readWords ("--cached" :: words) = .ok (.cached :: given) := by
    rw [readWords_cached, hgiven]
    rfl
  have hnumbers' : readNumbers (.cached :: given) = .ok numbers := by rw [readNumbers, hnumbers]
  simp only [parse, hgiven, hnumbers, bind, Except.bind] at h
  simp only [parse, hgiven', hnumbers', bind, Except.bind, List.map_cons, Given.setting,
    List.mem_cons, reduceCtorEq, false_or]
  split_ifs at h ⊢ with hseed
  cases hrepeated : firstRepeated? (given.map Given.setting) with
  | some setting => simp [hrepeated, throw, throwThe, MonadExceptOf.throw] at h
  | none =>
    simp only [hrepeated] at h
    have ho := Except.ok.inj h
    -- The flag is not among the words yet, so it is not given twice now.
    have hflag : none ∉ given.map Given.setting := by
      have hcached := congrArg Options.cached ho
      rw [cached_foldl_set] at hcached
      exact of_decide_eq_false hcached
    simp only [firstRepeated?, if_neg hflag, hrepeated, true_or, decide_true]
    exact congrArg Except.ok <| (foldl_set_cached numbers _).trans <|
      congrArg (fun o : Options => { o with cached := true }) ho

end Flag

/-! ### Calls and actions -/

section Actions

open Subject (Sound Tracks)

variable {t : CachedTree} {s : Store Item} {shape : Shape}

/-- What the benchmark makes of an operation, from how the operation ends. -/
theorem attempt_run (t : τ) (op : Guarded Item Unit τ) (s : Store Item) (x : Unit) :
    attempt t op s x = (op.run s x).map fun out =>
      ((match out.1.1 with
        | .ok t' => t'
        | .error _ => t, out.1.2), out.2) := by
  rw [attempt, Update.run_bind]
  cases op.run s x with
  | error fault => rfl
  | ok out =>
    obtain ⟨⟨outcome, s'⟩, x'⟩ := out
    cases outcome <;> rfl

/-- Operations that end alike are attempted alike. -/
theorem attempt_plain {op : Guarded Item Unit CachedTree} {op₀ : Guarded Item Unit Tree} {x : Unit}
    (h : (CachedTree.tree <$> op).run s x = op₀.run s x) :
    (CachedTree.tree <$> attempt t op) s x = attempt t.tree op₀ s x := by
  rw [Update.run_map, attempt_run, attempt_run, ← h, ExceptT.run_map, Update.run_map]
  cases op.run s x with
  | error fault => rfl
  | ok out =>
    obtain ⟨⟨outcome, s'⟩, x'⟩ := out
    cases outcome <;> rfl

/-- An insertion into a cached tree, without the cache, is an insertion into the tree inside. -/
theorem insert_plain (t : CachedTree) (id : RecordId) :
    CachedTree.tree <$> Subject.insert t id = Subject.insert t.tree id :=
  t.tree_insertWith .none id compareKey

/-- So it is with a deletion. The cache first looks for the node that comes next, and in a sound
tree that ends without a fault. -/
theorem delete_plain (h : Sound t s shape) {id : RecordId} (hin : id ∈ shape.inorder) (x : Unit) :
    (CachedTree.tree <$> Subject.delete t id).run s x = (Subject.delete t.tree id).run s x := by
  obtain ⟨l, r, hlist⟩ := List.append_of_mem hin
  exact CachedTree.run_tree_deleteWith (fun _ => ⟨_, h.tree_keeps.next_eq hlist⟩) x

/-- The insertions of a load, all of them. -/
theorem load_plain (count : Nat) (id : RecordId) (t : CachedTree) :
    CachedTree.tree <$> load count id t = load count id t.tree := by
  induction count generalizing id t with
  | zero => rfl
  | succ count ih =>
    simp only [load, map_bind, ih, ← insert_plain, bind_map_left]

/-- The step: an action that is made with a cache at hand is made without it as well. -/
theorem act_plain (h : Sound t s shape) (tally : Tally) (action : Action) (x : Unit) :
    (Prod.map CachedTree.tree id <$> act t tally action) s x = act t.tree tally action s x := by
  cases action with
  | insert key =>
    -- Whatever comes of the insertion, the tree inside is what the plain one leaves.
    have hattempt (id : RecordId) : attempt t.tree (Subject.insert t.tree id) =
        CachedTree.tree <$> attempt t (Subject.insert t id) :=
      funext fun s => funext fun x => (attempt_plain (by rw [insert_plain])).symm
    simp only [act, hattempt, map_bind, bind_map_left, map_pure, Prod.map, id]
  | delete pick =>
    simp only [act, map_bind]
    refine Update.read_bind_congr fun size hsize => ?_
    split_ifs with hzero
    · rfl
    · rw [map_bind]
      refine Update.read_bind_congr fun n hn => ?_
      -- Only what is linked is deleted, and in a sound tree that is a node.
      cases hstate : n.state with
      | linked =>
        have hin : pick % size ∈ shape.inorder := h.mem_of_linked _ n hn hstate
        have hattempt := attempt_plain (t := t) (delete_plain h hin x)
        simp only [map_bind, map_pure, Prod.map, id]
        rw [Update.run_bind, Update.run_bind, ← hattempt, Update.run_map]
        cases attempt t (Subject.delete t (pick % size)) s x <;> rfl
      | detached | removed => rfl
  | find pick =>
    simp only [act, map_bind]
    refine Update.read_bind_congr fun size _ => ?_
    split_ifs
    · rfl
    · rw [map_bind]
      exact Update.read_bind_congr fun _ _ => rfl

variable [Source γ]

/-- What a sound state owes to an account of its items. -/
theorem Subject.Sound.tracks (h : Sound t s shape) (tally : Tally) :
    Tracks t s shape { size := s.size, linked := shape.inorder.toFinset, tally } :=
  ⟨h, rfl, fun _ => List.mem_toFinset.symm⟩

/-- The run: actions that are made with a cache at hand are made without it as well, and what is
drawn for them is the same. -/
theorem actAll_plain (h : Sound t s shape) (count : Nat) (g : γ) (tally : Tally) :
    (Prod.map (Prod.map CachedTree.tree id) id <$> actAll count g t tally) s () =
      actAll count g t.tree tally s () := by
  induction count generalizing g t s shape tally with
  | zero => rfl
  | succ count ih =>
    obtain ⟨⟨t', tally'⟩, s', x, hact, -, shape', htracks⟩ :=
      (h.tracks tally).returns_act (Action.draw g).1
    have hplain := act_plain h tally (Action.draw g).1 ()
    rw [Update.run_map, hact] at hplain
    simp only [actAll, map_bind]
    rw [Update.run_bind, Update.run_bind, hact, ← hplain]
    exact ih htracks.toSound _ tally'

end Actions

/-! ### Stages -/

/-- The state of a run without the cache. -/
def Bench.plain (b : Bench CachedTree γ) : Bench Tree γ :=
  ⟨b.tree.tree, b.items, b.segments, b.entries, b.random⟩

/-- The items are as they are between two calls. -/
def Bench.Sound (b : Bench CachedTree γ) : Prop := ∃ shape, Subject.Sound b.tree b.items shape

/-- The stage with a cache at hand and the stage without it: they do the same to a sound state, and
leave a sound one. -/
structure Stage.Twin (stage : Stage CachedTree γ) (stage₀ : Stage Tree γ) : Prop where
  plain : ∀ b, b.Sound → Prod.map Bench.plain id <$> stage b = stage₀ b.plain
  sound : ∀ b b' line, b.Sound → stage b = .ok (b', line) → b'.Sound

section Outcomes

variable {α β ρ : Type}

/-- What came through two parts came through the first one. -/
theorem exists_of_bind {x : Except Failure α} {f : α → Except Failure β} {b : β}
    (h : x >>= f = .ok b) : ∃ a, x = .ok a ∧ f a = .ok b := by
  cases x with
  | error failure => cases h
  | ok a => exact ⟨a, rfl, h⟩

/-- When what a call returns is mapped, so is what the benchmark accepts. -/
theorem accepted_map (f : α → β) (u : Guarded ρ Unit α) (s : Store ρ) :
    accepted s (f <$> u) = Prod.map f id <$> accepted s u := by
  have hrun : (f <$> u) s () = (u s ()).map fun out => ((out.1.1.map f, out.1.2), out.2) := by
    show (f <$> u).run s () = _
    rw [ExceptT.run_map, Update.run_map]
    rfl
  unfold accepted
  rw [hrun]
  cases u s () with
  | error fault => rfl
  | ok out =>
    obtain ⟨⟨outcome, s'⟩, x'⟩ := out
    cases outcome <;> rfl

/-- When an update is another one with its result mapped, so is what the benchmark takes from it. -/
theorem updated_map {f : α → β} {u : Update ρ Unit α} {u₀ : Update ρ Unit β} {s : Store ρ}
    (h : (f <$> u) s () = u₀ s ()) : updated s u₀ = Prod.map f id <$> updated s u := by
  unfold updated
  rw [← h, Update.run_map]
  cases u s () <;> rfl

/-- What a call makes sure of holds of what the benchmark accepts. -/
theorem of_accepted {u : Guarded ρ Unit α} {s s' : Store ρ} {a : α}
    {Q : α → Store ρ → Unit → Prop} {R : Rejection → Store ρ → Unit → Prop}
    (h : u.Returns s () Q R) (hrun : accepted s u = .ok (a, s')) : Q a s' () := by
  obtain ⟨outcome, s₁, x₁, hu, hout⟩ := h
  unfold accepted at hrun
  rw [show u s () = _ from hu] at hrun
  cases outcome with
  | ok b =>
    cases hrun
    exact hout
  | error r => cases hrun

/-- What an update makes sure of holds of what the benchmark takes from it. -/
theorem of_updated {u : Update ρ Unit α} {s s' : Store ρ} {a : α}
    {Q : α → Store ρ → Unit → Prop} (h : u.Returns s () Q) (hrun : updated s u = .ok (a, s')) :
    Q a s' () := by
  obtain ⟨b, s₁, x₁, hu, hout⟩ := h
  unfold updated at hrun
  rw [hu] at hrun
  cases hrun
  exact hout

end Outcomes

namespace Stage

open Subject (Sound)

section Items

variable {t : CachedTree} {s : Store Item} {shape : Shape}

/-- An insertion leaves a sound state, also if the item is linked already. -/
theorem returns_insert (h : Sound t s shape) {id : RecordId} (hid : id < s.size) :
    (Subject.insert t id).Returns s ()
      (fun t' s' _ => ∃ shape', Sound t' s' shape' ∧ s'.size = s.size) fun _ _ _ => True := by
  by_cases hin : id ∈ shape.inorder
  · obtain ⟨n, hn⟩ := Store.exists_node_of_lt hid
    have hlinked : n.state = .linked := (h.linked_iff hn).mpr hin
    refine (CachedTree.returns_insertWith (Augmentation.turns_none fun _ _ => True)
      (Augmentation.grows_none (fun _ _ => True) id) compareKey h.keeps hn
      fun _ _ => trivial).mono ?_ fun _ _ _ _ => trivial
    intro t' s' x' hdone
    exact absurd hlinked hdone.1
  · refine (h.returns_insert hid hin).mono ?_ fun _ _ _ _ => trivial
    intro t' s' x' hdone
    obtain ⟨shape', hsound, hpayload, -⟩ := hdone
    exact ⟨shape', hsound, Store.size_eq_of_payload hpayload⟩

/-- Loading records of the store into a sound tree returns, and leaves a sound tree unless one of
them is turned down. -/
theorem returns_load (h : Sound t s shape) {count id : Nat} (hid : id + count ≤ s.size) :
    (Benchmark.load count id t).Returns s () (fun t' s' _ => ∃ shape', Sound t' s' shape')
      fun _ _ _ => True := by
  induction count generalizing id t s shape with
  | zero => exact Guarded.returns_pure.mpr ⟨shape, h⟩
  | succ count ih =>
    rw [Benchmark.load, Guarded.returns_bind]
    refine (returns_insert h (show id < s.size by omega)).mono ?_ fun _ _ _ hr => hr
    intro t₁ s₁ x hdone
    obtain ⟨shape₁, hsound, hsize⟩ := hdone
    exact ih hsound (show id + 1 + count ≤ s₁.size by omega)

end Items

/-- The items go into both trees alike, and the one with the cache stays sound. -/
theorem twin_load : Twin (γ := γ) load load where
  plain b _ := by
    simp only [load, Bench.plain, ← load_plain, accepted_map, map_bind, bind_map_left, map_pure]
    rfl
  sound b b' line h hrun := by
    obtain ⟨shape, hsound⟩ := h
    obtain ⟨out, hload, hout⟩ := exists_of_bind hrun
    cases hout
    exact of_accepted (returns_load hsound (Nat.zero_add b.items.size).le) hload

/-- A stage of both kinds that leaves the items and their tree alone. -/
theorem Twin.of_keeps {stage : Stage CachedTree γ} {stage₀ : Stage Tree γ}
    (hplain : ∀ b, b.Sound → Prod.map Bench.plain id <$> stage b = stage₀ b.plain)
    (hkeeps : ∀ b b' line, stage b = .ok (b', line) → b'.tree = b.tree ∧ b'.items = b.items) :
    Twin stage stage₀ where
  plain := hplain
  sound b b' line h hrun := by
    obtain ⟨htree, hitems⟩ := hkeeps b b' line hrun
    unfold Bench.Sound
    rwa [htree, hitems]

/-- A line that is only announced changes nothing on either side. -/
theorem twin_announce (line : Line) : Twin (γ := γ) (announce line) (announce line) := by
  refine .of_keeps (fun _ _ => rfl) fun b b' line' hrun => ?_
  cases hrun
  exact ⟨rfl, rfl⟩

/-- The depth is that of the tree inside. -/
theorem twin_measure : Twin (γ := γ) measure measure := by
  refine .of_keeps (fun b _ => ?_) fun b b' line hrun => ?_
  · simp only [measure, map_bind, map_pure]
    rfl
  · obtain ⟨shape, -, hout⟩ := exists_of_bind hrun
    cases hout
    exact ⟨rfl, rfl⟩

/-- A look-up goes through the tree inside. -/
theorem firstMissing_plain (t : CachedTree) (s : Store Item) (count : Nat) (id : RecordId) :
    firstMissing t.tree s count id = firstMissing t s count id := by
  induction count generalizing id with
  | zero => rfl
  | succ count ih =>
    simp only [firstMissing, ih]
    rfl

/-- Keys are looked up in the tree inside. -/
theorem twin_find (loop : Nat) : Twin (γ := γ) (find loop) (find loop) := by
  refine .of_keeps (fun b _ => ?_) fun b b' line hrun => ?_
  · simp only [find, Bench.plain, firstMissing_plain, map_bind]
    congr 1
    funext missing
    cases missing <;> rfl
  · obtain ⟨missing, -, hout⟩ := exists_of_bind hrun
    cases missing with
    | some id => cases hout
    | none =>
      cases hout
      exact ⟨rfl, rfl⟩

/-- A walk starts at the same node on both sides, with the cache or without it. -/
theorem twin_walk (order : Order) (line : Nat → Line) :
    Twin (γ := γ) (walk order line) (walk order line) := by
  refine .of_keeps (fun b h => ?_) fun b b' line' hrun => ?_
  · -- A walk over the tree inside begins where one from the cache does.
    obtain ⟨shape, hsound⟩ := h
    have hcursor : Subject.cursor b.tree b.items order = Subject.cursor b.tree.tree b.items order :=
      Subject.Lawful.cursor_eq hsound.keeps order
    simp only [walk, Bench.plain, hcursor, map_bind, map_pure, Prod.map, id]
  · obtain ⟨cursor, -, hrest⟩ := exists_of_bind hrun
    obtain ⟨visited, -, hout⟩ := exists_of_bind hrest
    cases hout
    exact ⟨rfl, rfl⟩

/-- The segments go into a tree of their own, whatever holds the items. -/
theorem twin_loadSegments : Twin (γ := γ) loadSegments loadSegments := by
  refine .of_keeps (fun b _ => ?_) fun b b' line hrun => ?_
  · simp only [loadSegments, Bench.plain, map_bind, map_pure, Prod.map, id]
  · obtain ⟨out, -, hout⟩ := exists_of_bind hrun
    cases hout
    exact ⟨rfl, rfl⟩

variable [Source γ]

/-- Items that have just been generated are in no tree, so the tree stays sound. -/
theorem sound_generate {t : CachedTree} {items : Store Item} {shape : Shape}
    (h : Sound t items shape) (count : Nat) (g : γ) :
    Sound t (Benchmark.generate count g items).1 shape := by
  induction count generalizing g items with
  | zero => exact h
  | succ count ih => exact ih (h.push _) _

/-- Both sides generate the same items. -/
theorem twin_generate (count : Nat) : Twin (γ := γ) (generate count) (generate count) where
  plain _ _ := rfl
  sound b b' line h hrun := by
    obtain ⟨shape, hsound⟩ := h
    cases hrun
    exact ⟨shape, sound_generate hsound count b.random⟩

/-- Both sides carry out the same actions, and the tree with the cache stays sound. -/
theorem twin_act (count : Nat) : Twin (γ := γ) (act count) (act count) where
  plain b h := by
    obtain ⟨shape, hsound⟩ := h
    have hupdated := updated_map (actAll_plain hsound count b.random {})
    simp only [act, Bench.plain, hupdated, map_bind, bind_map_left, map_pure]
    rfl
  sound b b' line h hrun := by
    obtain ⟨shape, hsound⟩ := h
    obtain ⟨out, hact, hout⟩ := exists_of_bind hrun
    cases hout
    obtain ⟨-, -, shape', htracks⟩ :=
      of_updated ((hsound.tracks {}).returns_actAll count b.random) hact
    exact ⟨shape', htracks.toSound⟩

/-- The segments are generated beside the items. -/
theorem twin_generateSegments (count : Nat) :
    Twin (γ := γ) (generateSegments count) (generateSegments count) := by
  refine .of_keeps (fun _ _ => rfl) fun b b' line hrun => ?_
  cases hrun
  exact ⟨rfl, rfl⟩

/-- The queries are put to the tree of the segments, whatever holds the items. -/
theorem twin_query (count : Nat) : Twin (γ := γ) (query count) (query count) := by
  refine .of_keeps (fun b _ => ?_) fun b b' line hrun => ?_
  · simp only [query, Bench.plain, map_bind, map_pure, Prod.map, id]
  · obtain ⟨out, -, hout⟩ := exists_of_bind hrun
    cases hout
    exact ⟨rfl, rfl⟩

end Stage

/-! ### Runs -/

/-- Goes through stages. Returns the state that they lead to, and their lines. -/
def through : List (Stage τ γ) → Bench τ γ → Except Failure (Bench τ γ × List Line)
  | [], b => pure (b, [])
  | stage :: rest, b => do
    let (b, line) ← stage b
    let (b, lines) ← through rest b
    pure (b, line.toList ++ lines)

/-- The lines of the stages are those that come of going through them. -/
theorem follow_eq (stages : List (Stage τ γ)) (b : Bench τ γ) :
    follow stages b = Prod.snd <$> through stages b := by
  induction stages generalizing b with
  | nil => rfl
  | cons stage rest ih =>
    simp only [follow, through, ih, ← bind_pure_comp, bind_assoc, pure_bind]

/-- The beginning of stages that can be gone through can be gone through as well. -/
theorem exists_through_take {stages : List (Stage τ γ)} {b b' : Bench τ γ} {lines : List Line}
    (h : through stages b = .ok (b', lines)) (n : Nat) :
    ∃ out, through (stages.take n) b = .ok out := by
  induction stages generalizing b b' lines n with
  | nil => exact ⟨(b, []), by rw [List.take_nil]; rfl⟩
  | cons stage rest ih =>
    cases n with
    | zero => exact ⟨(b, []), rfl⟩
    | succ n =>
      obtain ⟨⟨b₁, line⟩, hstage, hrest⟩ := exists_of_bind h
      obtain ⟨⟨b₂, lines₂⟩, hthrough, -⟩ := exists_of_bind hrest
      obtain ⟨⟨b₃, lines₃⟩, htake⟩ := ih hthrough n
      refine ⟨(b₃, line.toList ++ lines₃), ?_⟩
      simp only [List.take_succ_cons, through, hstage, htake, bind, Except.bind]
      rfl

/-- Twins lead from a sound state and from the same without its cache to states that are so again,
with the same lines. -/
theorem through_plain {stages : List (Stage CachedTree γ)} {stages₀ : List (Stage Tree γ)}
    (h : List.Forall₂ Stage.Twin stages stages₀) {b : Bench CachedTree γ} (hb : b.Sound) :
    Prod.map Bench.plain id <$> through stages b = through stages₀ b.plain := by
  induction h generalizing b with
  | nil => rfl
  | @cons stage stage₀ rest rest₀ htwin _ ih =>
    simp only [through, ← htwin.plain b hb, map_bind, bind_map_left, map_pure]
    cases hstage : stage b with
    | error failure => rfl
    | ok out =>
      show (through rest out.1 >>= _) = (through rest₀ out.1.plain >>= _)
      rw [← ih (htwin.sound b out.1 out.2 hb hstage), bind_map_left]
      rfl

variable [Source γ]

/-- Each stage of a run has its twin. -/
theorem forall₂_twin_stages (o : Options) (seed : Nat) :
    List.Forall₂ (Stage.Twin (γ := γ)) (stages o seed) (stages o seed) := by
  have hloading : List.Forall₂ (Stage.Twin (γ := γ))
      [.announce (.seed seed), .announce (.generating o.loads), .generate o.loads, .load, .measure]
      [.announce (.seed seed), .announce (.generating o.loads), .generate o.loads, .load,
        .measure] :=
    .cons (Stage.twin_announce _) <| .cons (Stage.twin_announce _) <|
      .cons (Stage.twin_generate _) <| .cons Stage.twin_load <| .cons Stage.twin_measure .nil
  have hfind : List.Forall₂ (Stage.Twin (γ := γ)) ((List.range o.loops).map .find)
      ((List.range o.loops).map .find) := by
    rw [List.forall₂_map_left_iff, List.forall₂_map_right_iff]
    exact List.forall₂_same.mpr fun loop _ => Stage.twin_find loop
  have hwalk : List.Forall₂ (Stage.Twin (γ := γ))
      [.walk .ascending .walkedInOrder, .walk .postOrder .walkedPostOrder]
      [.walk .ascending .walkedInOrder, .walk .postOrder .walkedPostOrder] :=
    .cons (Stage.twin_walk _ _) <| .cons (Stage.twin_walk _ _) .nil
  -- What is left are the stages that a run without actions or segments leaves out.
  refine List.rel_append (List.rel_append (List.rel_append (List.rel_append hloading hfind) ?_)
    hwalk) ?_
  · split_ifs
    · exact .nil
    · exact .cons (Stage.twin_act _) .nil
  · split_ifs
    · exact .nil
    · exact .cons (Stage.twin_generateSegments _) <| .cons Stage.twin_loadSegments <|
        .cons (Stage.twin_query _) .nil

/-- The state that a run starts from. -/
def Bench.start (τ : Type) [Subject τ] (random : γ) : Bench τ γ :=
  { tree := Subject.empty, random }

/-- The tree and the items after the first `count` insertions of a run. -/
def loadedAfter (τ : Type) [Subject τ] (o : Options) (random : γ) (count : Nat) :
    Except Failure (τ × Store Item) :=
  accepted (generate o.loads random #[]).1 (load count 0 Subject.empty)

/-- The tree, the tally, what is left of the stream and the items after the first `count` actions
of a run. -/
def actedAfter (τ : Type) [Subject τ] (o : Options) (random : γ) (count : Nat) :
    Except Failure (((τ × Tally) × γ) × Store Item) := do
  let (tree, items) ← loadedAfter τ o random o.loads
  updated items (actAll count (generate o.loads random #[]).2 tree {})

open Subject (Sound)

omit [Source γ] in
/-- A run starts without items, which is sound. -/
theorem sound_start (random : γ) : (Bench.start CachedTree random).Sound :=
  ⟨.leaf, .of_fresh fun id _ hn => absurd (Store.lt_of_node hn) (Nat.not_lt_zero id)⟩

/-- All beginnings of a run come to their end, with a cache and without. -/
theorem exists_through_stages (o : Options) (seed : Nat) (random : γ) (n : Nat) :
    ∃ b lines, through ((stages o seed).take n) (Bench.start CachedTree random) = .ok (b, lines) ∧
      through ((stages o seed).take n) (Bench.start Tree random) = .ok (b.plain, lines) := by
  obtain ⟨depth, hreport, -⟩ := reportOn_eq CachedTree o seed random
  rw [reportOn, follow_eq, map_eq_pure_bind] at hreport
  obtain ⟨⟨b₁, lines₁⟩, hall, -⟩ := exists_of_bind hreport
  obtain ⟨⟨b, lines⟩, htake⟩ := exists_through_take (b := .start CachedTree random) hall n
  have hplain := through_plain (List.forall₂_take n (forall₂_twin_stages o seed))
    (sound_start random)
  rw [htake] at hplain
  exact ⟨b, lines, htake, hplain.symm⟩

/-- The first insertions of a run go through, and do the same with a cache and without. -/
theorem exists_loadedAfter (o : Options) (random : γ) {count : Nat} (h : count ≤ o.loads) :
    ∃ t items, loadedAfter CachedTree o random count = .ok (t, items) ∧
      loadedAfter Tree o random count = .ok (t.tree, items) ∧ ∃ shape, Sound t items shape := by
  have hfresh : ∀ id n, (generate o.loads random #[]).1.node id = .ok n → n = {} :=
    fresh_generate o.loads random #[] fun id n hn =>
      absurd (Store.lt_of_node hn) (Nat.not_lt_zero id)
  have hsize : 0 + count ≤ (generate o.loads random #[]).1.size := by
    rw [size_generate, Nat.zero_add]
    exact h.trans (Nat.le_add_left _ _)
  have hnone : ∀ j : Nat, j ∈ Shape.leaf.inorder ↔ j < 0 := by
    intro j
    simp [Shape.inorder]
  obtain ⟨t, items, hrun, shape, hsound, -⟩ :=
    exists_accepted (Subject.returns_load (Sound.of_fresh (τ := CachedTree) hfresh) hsize hnone)
  refine ⟨t, items, hrun, ?_, shape, hsound⟩
  have hplain := load_plain count 0 CachedTree.empty
  unfold loadedAfter
  rw [show (Subject.empty : Tree) = CachedTree.empty.tree from rfl, ← hplain, accepted_map]
  rw [show (CachedTree.empty : CachedTree) = Subject.empty from rfl, hrun]
  rfl

/-- The first actions of a run do the same with a cache and without, and draw the same. -/
theorem exists_actedAfter (o : Options) (random : γ) (count : Nat) :
    ∃ t tally g items, actedAfter CachedTree o random count = .ok (((t, tally), g), items) ∧
      actedAfter Tree o random count = .ok (((t.tree, tally), g), items) := by
  obtain ⟨t, items, hload, hload₀, shape, hsound⟩ := exists_loadedAfter o random le_rfl
  obtain ⟨⟨⟨t', tally⟩, g⟩, items', hact, -⟩ := exists_updated
    ((hsound.tracks {}).returns_actAll count (generate o.loads random #[]).2)
  have hplain := updated_map (actAll_plain hsound count (generate o.loads random #[]).2 {})
  rw [hact] at hplain
  refine ⟨t', tally, g, items', ?_, ?_⟩
  · rw [actedAfter, hload]
    exact hact
  · rw [actedAfter, hload₀]
    exact hplain

/-- The flag does not show. For all options, all seeds and any stream of numbers, a command line
without it can be given it, and asks for the same otherwise. The run comes to its end either way,
with the same report. After any number of stages, the two runs have the same records, the same
tree in them but for the cache, and the same numbers still to draw, and reported the same lines so
far. The same holds within the two stages that change the tree: after each insertion of the load,
and after each action, with the same tally then. -/
theorem cached_run_eq (o : Options) (seed : Nat) (random : γ) :
    (∀ words, Options.parse words = .ok { o with cached := false } →
      Options.parse ("--cached" :: words) = .ok { o with cached := true }) ∧
    (∃ lines, report { o with cached := true } seed random = .ok lines ∧
      report { o with cached := false } seed random = .ok lines) ∧
    (∀ n, ∃ b lines,
      through ((stages o seed).take n) (Bench.start CachedTree random) = .ok (b, lines) ∧
      through ((stages o seed).take n) (Bench.start Tree random) = .ok (b.plain, lines)) ∧
    (∀ count ≤ o.loads, ∃ t items, loadedAfter CachedTree o random count = .ok (t, items) ∧
      loadedAfter Tree o random count = .ok (t.tree, items)) ∧
    ∀ count, ∃ t tally g items,
      actedAfter CachedTree o random count = .ok (((t, tally), g), items) ∧
      actedAfter Tree o random count = .ok (((t.tree, tally), g), items) := by
  refine ⟨fun words h => Options.parse_cached h, ?_, exists_through_stages o seed random,
    fun count h => ?_, exists_actedAfter o random⟩
  · -- A report is the lines of all its stages.
    obtain ⟨b, lines, hcached, hplain⟩ :=
      exists_through_stages o seed random (stages (γ := γ) (τ := CachedTree) o seed).length
    have hlength := (forall₂_twin_stages (γ := γ) o seed).length_eq
    rw [List.take_length] at hcached
    rw [hlength, List.take_length] at hplain
    refine ⟨lines, ?_, ?_⟩
    · show follow (stages o seed) (Bench.start CachedTree random) = _
      rw [follow_eq, hcached]
      rfl
    · show follow (stages o seed) (Bench.start Tree random) = _
      rw [follow_eq, hplain]
      rfl
  · obtain ⟨t, items, hload, hload₀, -⟩ := exists_loadedAfter o random h
    exact ⟨t, items, hload, hload₀⟩

end Benchmark

end RecordTree
