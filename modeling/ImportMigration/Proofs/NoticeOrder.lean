import ImportMigration.Proofs.Console

/-!
The order in which a run visits files and speaks of them. A walk visits the files in the order of
their places below the root (`Path.Precedes`), in whatever order the directories are listed, and a
run says of each file what became of it, and of each directory that it cannot list, at its place in
that order.
-/

namespace ImportMigration

theorem Session.Alike.node_directory {s s' : Session} (h : s'.Alike s) {p : Path} {access : Access}
    (hd : s.node p = .ok (.directory access)) : s'.node p = .ok (.directory access) := by
  obtain ⟨place, hp, hn⟩ := Session.node_eq_ok_iff.mp hd
  refine Session.node_eq_ok_iff.mpr ⟨place, (h.resolve_eq p).trans hp, ?_⟩
  rcases h.disk.cases place with ⟨_, _, _, _, hfile⟩ | heq
  · simp [hn] at hfile
  · exact heq.trans hn

namespace Migration

open Import Source

def Event.path : Event → Path
  | visited p _ => p
  | unreadable directory _ => directory

theorem map_path_events (es : List Encounter) (os : List Outcome) :
    ((events es os).map Event.path).Sublist (es.map Encounter.path) := by
  fun_induction events es os with
  | case1 directory cause es os ih => exact ih.cons_cons directory
  | case2 p es o os ih => exact ih.cons_cons p
  | case3 es os => exact List.nil_sublist _

theorem path_of_notice? {mode : Mode} {causeOf : Path → Cause} {e : Event} {n : Notice}
    (h : e.notice? mode causeOf = some n) : n.path = e.path := by
  cases e with
  | unreadable directory cause => exact congrArg Notice.path (Option.some.inj h).symm
  | visited p o =>
    cases o with
    | unchanged => contradiction
    | updated => cases mode <;> exact congrArg Notice.path (Option.some.inj h).symm
    | _ => exact congrArg Notice.path (Option.some.inj h).symm

/-- The paths of the notices are those of the events that are told, in their order. -/
theorem map_path_notices (mode : Mode) (causeOf : Path → Cause) (l : List Event) :
    ((l.filterMap (Event.notice? mode causeOf)).map Notice.path).Sublist (l.map Event.path) := by
  induction l with
  | nil => exact List.nil_sublist _
  | cons e l ih =>
    rw [List.filterMap_cons, List.map_cons]
    cases hn : e.notice? mode causeOf with
    | none => exact ih.cons _
    | some n =>
      rw [List.map_cons, path_of_notice? hn]
      exact ih.cons_cons _

/-- A walk of a root that is a directory visits paths below it in strict order, each name compared
by its bytes before the next one, and the same paths in whatever order the directories are listed.
A run, with or without writing, visits them in that order as well. It tells what became of them,
apart from those that stay as they are, and which directories cannot be listed, in that order. -/
theorem run_in_order (filter : Filter) (root : Path) (s : Session) (access : Access)
    (h : s.node root = .ok (.directory access)) :
    ∃ visited : List Path,
      (∀ p ∈ visited, ∃ names, p = root.below names) ∧
      visited.Pairwise root.Precedes ∧
      ∀ s' : Session, s'.Alike s →
        ((walk filter pure root : StateM Session (Except RootError (List Path))) s').1 =
          .ok visited ∧
        ∀ mode : Mode, ∃ l s'' told,
          (run ⟨root, filter, mode⟩ : StateM Session (Except RootError Report)) s' =
            (.ok (tally l), s'') ∧
          log ⟨root, filter, mode⟩ s' = (.ok l, s'') ∧
          l.map Prod.fst = visited ∧
          s''.notices = s'.notices ++ told ∧
          (told.map Notice.path).Pairwise root.Precedes ∧
          told.filterMap Notice.visit? = l.filter (·.2 != .unchanged) := by
  refine ⟨(itineraryOf filter s root).filterMap Encounter.path?, ?_, pairwise_paths filter s root,
    ?_⟩
  · intro p hp
    obtain ⟨e, he, hp⟩ := List.mem_filterMap.mp hp
    exact exists_below_of_mem (Encounter.path?_eq_some_iff.mp hp ▸ he)
  · intro s' hs
    have h' := hs.node_directory h
    rw [← itineraryOf_eq hs]
    refine ⟨by rw [walk_eq_meet keepsShape_pure h', meet_pure], ?_⟩
    intro mode
    have htold := notices_meet defaultRules mode (itineraryOf filter s' root) (.refl s')
    rw [← congrArg Prod.snd (meet_logged defaultRules mode (itineraryOf filter s' root) s')]
      at htold
    refine ⟨_, _, _, run_eq_tally_log mode h', log_of_directory mode h',
      map_fst_meet_logged defaultRules mode _ s', htold, ?_, ?_⟩
    · have hpaths : ((itineraryOf filter s' root).map Encounter.path).Pairwise root.Precedes :=
        List.pairwise_map.mpr (pairwise_itinerary filter s' _ root)
      exact hpaths.sublist ((map_path_notices mode (refusal s') _).trans (map_path_events _ _))
    · rw [filterMap_visit_events, meet_logged]

def nestedDirectory : FileName :=
  ⟨[0x61], by decide⟩

/-- A directory with a source file and another one beside it, whose name goes on where that of the
directory ends. -/
def nested : Session where
  disk := ⟨[([], .directory ⟨true, true, true⟩),
    ([nestedDirectory], .directory ⟨true, true, true⟩),
    ([nestedDirectory, aliasName], .file ⟨true, true, false⟩ (Utf8.encode legacyImport)),
    ([sourceName], .file ⟨true, true, false⟩ (Utf8.encode legacyImport))], by decide⟩
  directory := []

/-- The same disk, listed backwards. -/
def nestedBackwards : Session where
  disk := ⟨nested.disk.nodes.reverse, by decide⟩
  directory := []

theorem itinerary_nested :
    itineraryOf .default nested top =
      [.file ((top.child nestedDirectory).child aliasName), .file (top.child sourceName)] := by
  have hl : nested.list top = .ok [⟨nestedDirectory, .directory⟩, ⟨sourceName, .file⟩] := by
    decide +kernel
  unfold itineraryOf itinerary
  rw [hl]
  dsimp only
  rw [List.mergeSort_of_pairwise (by decide +kernel)]
  decide +kernel

/-- `/a/b.js` comes before `/a.js`, though the system lists `/a.js` first and `/` is a later byte
than `.`. -/
theorem nested_in_order :
    nested.node top = .ok (.directory ⟨true, true, true⟩) ∧ nestedBackwards.Alike nested ∧
    (nestedBackwards.list top).map (·.map Entry.name) = .ok [sourceName, nestedDirectory] ∧
    ((walk .default pure top : StateM Session (Except RootError (List Path))) nestedBackwards).1 =
      .ok [(top.child nestedDirectory).child aliasName, top.child sourceName] ∧
    ∃ report s', (run ⟨top, .default, .write⟩ : StateM Session (Except RootError Report))
        nestedBackwards = (.ok report, s') ∧
      s'.notices.filterMap Notice.visit? =
        [((top.child nestedDirectory).child aliasName, .updated),
          (top.child sourceName, .updated)] := by
  have h : nested.node top = .ok (.directory ⟨true, true, true⟩) := by decide +kernel
  have hs : nestedBackwards.Alike nested := ⟨.of_perm (List.reverse_perm _), rfl⟩
  obtain ⟨visited, _, _, hall⟩ := run_in_order .default top nested _ h
  obtain ⟨hwalk, hrun⟩ := hall nestedBackwards hs
  obtain ⟨l, s', told, hr, hl, _, hn, _, ht⟩ := hrun .write
  rw [log_of_directory _ (hs.node_directory h), itineraryOf_eq hs, itinerary_nested] at hl
  obtain rfl := Except.ok.inj (congrArg Prod.fst hl)
  have hvisited := (hall nested (.refl nested)).1
  rw [walk_eq_meet keepsShape_pure h, meet_pure, itinerary_nested] at hvisited
  obtain rfl := Except.ok.inj hvisited
  refine ⟨h, hs, by decide +kernel, hwalk, _, s', hr, ?_⟩
  rw [hn]
  refine ht.trans ?_
  decide +kernel

end Migration

end ImportMigration
