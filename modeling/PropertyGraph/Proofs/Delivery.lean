import PropertyGraph.Proofs.Replay
import PropertyGraph.Workspace.Delivery

namespace PropertyGraph

namespace Store

variable {s t u : Store} {a b : List Event} {o : Outcome}

/-- Mutations, one after the other, lead from one store to another, and these are their events. -/
def Led (s : Store) (events : List Event) (t : Store) : Prop :=
  ∃ ms : List Mutation, t = s.run (ms.map .perform) ∧ events = s.history ms

theorem Led.refl (s : Store) : s.Led [] s := ⟨[], rfl, rfl⟩

theorem run_append (s : Store) (as bs : List Call) : s.run (as ++ bs) = (s.run as).run bs :=
  List.foldl_append

theorem history_append (s : Store) (as bs : List Mutation) :
    s.history (as ++ bs) = s.history as ++ (s.run (as.map .perform)).history bs := by
  induction as generalizing s with
  | nil => rfl
  | cons m rest ih =>
    rw [List.cons_append, history, history, ih, List.append_assoc]
    rfl

theorem Led.trans (hst : s.Led a t) (htu : t.Led b u) : s.Led (a ++ b) u := by
  obtain ⟨ms, rfl, rfl⟩ := hst
  obtain ⟨ns, rfl, rfl⟩ := htu
  refine ⟨ms ++ ns, ?_, ?_⟩
  · rw [List.map_append, run_append]
  · rw [history_append]

theorem led_of_call {c : Call} (hc : s.call c = .ok o) : s.Led o.event.toList o.store := by
  rcases call_cases hc with ⟨m, _, hm⟩ | ⟨_, rfl⟩
  · refine ⟨[m], ?_, ?_⟩
    · simp only [run, List.map_cons, List.map_nil, List.foldl_cons, List.foldl_nil, after_perform,
        hm]
    · simp only [history, news, hm, List.append_nil]
  · exact .refl s

end Store

section Weaving

variable {writes : SinkId → Bool} {i j : SinkId} {sinks : List SinkId}

theorem ne_of_writes (hj : writes j = true) (hi : writes i = false) : j ≠ i := by
  rintro rfl
  rw [hi] at hj
  cases hj

theorem standing_cons_writer (hj : writes j = true) :
    standing writes i (j :: sinks) = true :: standing writes i sinks := by
  simp [standing, hj]

theorem standing_cons_self (hi : writes i = false) :
    standing writes i (i :: sinks) = false :: standing writes i sinks := by
  simp [standing, hi]

theorem standing_cons_other (hj : writes j = false) (hne : j ≠ i) :
    standing writes i (j :: sinks) = standing writes i sinks := by
  simp [standing, hj, hne]

/-- An event in all the places of its recorder, and in between what the recorder hears of each
answer. -/
def weave (event : Event) : List Bool → List (List Event) → List Event
  | false :: places, answers => event :: weave event places answers
  | true :: places, answer :: answers => answer ++ weave event places answers
  | _, _ => []

theorem weave_perm (event : Event) (hi : writes i = false) {answers : List (List Event)}
    (hl : (sinks.filter writes).length = answers.length) :
    (weave event (standing writes i sinks) answers).Perm
      (List.replicate (sinks.count i) event ++ answers.flatten) := by
  induction sinks generalizing answers with
  | nil =>
    cases answers with
    | nil => exact .refl _
    | cons a rest => cases hl
  | cons j rest ih =>
    cases hj : writes j with
    | true =>
      have hne : j ≠ i := ne_of_writes hj hi
      rw [List.filter_cons_of_pos hj] at hl
      cases answers with
      | nil => cases hl
      | cons a answers =>
        rw [standing_cons_writer hj, weave, List.count_cons_of_ne hne, List.flatten_cons]
        exact ((ih (Nat.succ.inj hl)).append_left a).trans (List.perm_append_comm_assoc ..)
    | false =>
      rw [List.filter_cons_of_neg (by simp [hj])] at hl
      by_cases hne : j = i
      · subst hne
        rw [standing_cons_self hi, weave, List.count_cons_self, List.replicate_succ]
        exact (ih hl).cons event
      · rw [standing_cons_other hj hne, List.count_cons_of_ne hne]
        exact ih hl

/-- A sink hears an event before all the answers if no sink that writes stands before it. -/
theorem weave_foremost (event : Event) (hi : writes i = false) {answers : List (List Event)}
    (hl : (sinks.filter writes).length = answers.length) (hf : Foremost writes i sinks) :
    weave event (standing writes i sinks) answers =
      List.replicate (sinks.count i) event ++ answers.flatten := by
  induction sinks generalizing answers with
  | nil =>
    cases answers with
    | nil => rfl
    | cons a rest => cases hl
  | cons j rest ih =>
    obtain ⟨hfirst, hrest⟩ := List.pairwise_cons.mp hf
    cases hj : writes j with
    | true =>
      have hne : j ≠ i := ne_of_writes hj hi
      have hnone : rest.count i = 0 := by
        refine List.count_eq_zero.mpr (fun hm => ?_)
        rw [hfirst i hm rfl] at hj
        cases hj
      rw [List.filter_cons_of_pos hj] at hl
      cases answers with
      | nil => cases hl
      | cons a answers =>
        rw [standing_cons_writer hj, weave, ih (Nat.succ.inj hl) hrest,
          List.count_cons_of_ne hne, hnone]
        rfl
    | false =>
      rw [List.filter_cons_of_neg (by simp [hj])] at hl
      by_cases hne : j = i
      · subst hne
        rw [standing_cons_self hi, weave, ih hl hrest, List.count_cons_self]
        rfl
      · rw [standing_cons_other hj hne, List.count_cons_of_ne hne, ih hl hrest]

end Weaving

section Hearing

variable {writes : SinkId → Bool} {subscribers : GraphId → List SinkId} {i : SinkId}
  {a b : List Change} {f h : SinkId → List Event}

theorem due_append (subscribers : GraphId → List SinkId) (i : SinkId) (a b : List Change) :
    due subscribers i (a ++ b) = due subscribers i a ++ due subscribers i b :=
  List.flatMap_append

theorem eventsOf_append (g : GraphId) (a b : List Change) :
    eventsOf g (a ++ b) = eventsOf g a ++ eventsOf g b := by
  rw [eventsOf, List.filter_append, List.map_append]
  rfl

theorem eventsOf_cons (g : GraphId) (c : Change) (rest : List Change) :
    eventsOf g (c :: rest) = (if c.graph = g then [c.event] else []) ++ eventsOf g rest := by
  unfold eventsOf
  by_cases hc : c.graph = g <;> simp [hc]

/-- What recorders hear of changes: each hears of all of them, those before the sinks that write
hear in order, and those that stand alike among the sinks that write hear alike. -/
structure Heard (writes : SinkId → Bool) (subscribers : GraphId → List SinkId)
    (changes : List Change) (heard : SinkId → List Event) : Prop where
  all : ∀ i, writes i = false → (heard i).Perm (due subscribers i changes)
  inOrder : ∀ i, writes i = false → (∀ g, Foremost writes i (subscribers g)) →
    heard i = due subscribers i changes
  alike : ∀ i k, writes i = false → writes k = false →
    (∀ g, standing writes i (subscribers g) = standing writes k (subscribers g)) →
      heard i = heard k

theorem heard_nil : Heard writes subscribers [] (fun _ => []) :=
  ⟨fun _ _ => .refl _, fun _ _ _ => rfl, fun _ _ _ _ _ => rfl⟩

theorem Heard.append (ha : Heard writes subscribers a f) (hb : Heard writes subscribers b h) :
    Heard writes subscribers (a ++ b) (fun i => f i ++ h i) where
  all i hi := by
    rw [due_append]
    exact (ha.all i hi).append (hb.all i hi)
  inOrder i hi hf := by rw [due_append, ha.inOrder i hi hf, hb.inOrder i hi hf]
  alike i k hi hk hs := by rw [ha.alike i k hi hk hs, hb.alike i k hi hk hs]

/-- What the calls of one answer bring about. -/
structure Echo where
  changes : List Change
  heard : SinkId → List Event

/-- What a recorder hears of one event among all the answers. -/
def woven (writes : SinkId → Bool) (event : Event) (sinks : List SinkId) (echoes : List Echo)
    (i : SinkId) : List Event :=
  weave event (standing writes i sinks) (echoes.map (fun e => e.heard i))

variable {echoes : List Echo} {sinks : List SinkId} {j : SinkId}

theorem woven_cons_writer (event : Event) (hj : writes j = true) (e : Echo) :
    woven writes event (j :: sinks) (e :: echoes) i =
      e.heard i ++ woven writes event sinks echoes i := by
  rw [woven, standing_cons_writer hj, List.map_cons, weave]
  rfl

theorem woven_cons_self (event : Event) (hi : writes i = false) :
    woven writes event (i :: sinks) echoes i = event :: woven writes event sinks echoes i := by
  rw [woven, standing_cons_self hi, weave]
  rfl

theorem woven_cons_other (event : Event) (hj : writes j = false) (hne : j ≠ i) :
    woven writes event (j :: sinks) echoes i = woven writes event sinks echoes i := by
  rw [woven, standing_cons_other hj hne]
  rfl

theorem heard_flatten
    (he : ∀ e ∈ echoes, Heard writes subscribers e.changes e.heard) :
    Heard writes subscribers (echoes.flatMap Echo.changes)
      (fun i => (echoes.map (fun e => e.heard i)).flatten) := by
  induction echoes with
  | nil => exact heard_nil
  | cons e rest ih =>
    exact (he e List.mem_cons_self).append (ih (fun x hx => he x (List.mem_cons_of_mem _ hx)))

/-- What is heard of one change and of all the answers to its event. -/
theorem heard_change (g : GraphId) (event : Event)
    (he : ∀ e ∈ echoes, Heard writes subscribers e.changes e.heard)
    (hl : ((subscribers g).filter writes).length = echoes.length) :
    Heard writes subscribers (⟨g, event⟩ :: echoes.flatMap Echo.changes)
      (woven writes event (subscribers g) echoes) where
  all i hi := by
    rw [← List.length_map (fun e : Echo => e.heard i)] at hl
    exact (weave_perm event hi hl).trans (((heard_flatten he).all i hi).append_left _)
  inOrder i hi hf := by
    rw [← List.length_map (fun e : Echo => e.heard i)] at hl
    rw [woven, weave_foremost event hi hl (hf g), (heard_flatten he).inOrder i hi hf]
    rfl
  alike i k hi hk hs := by
    have hmap : echoes.map (fun e => e.heard i) = echoes.map (fun e => e.heard k) :=
      List.map_congr_left (fun e hm => (he e hm).alike i k hi hk hs)
    rw [woven, woven, hs g, hmap]

end Hearing

namespace Workspace

variable {writes : SinkId → Bool} {w x y : Workspace} {errand : Errand} {changes : List Change}

/-- The second workspace has the graphs, sinks, reactions and subscriptions of the first. -/
structure Shaped (w x : Workspace) : Prop where
  graphs : x.graphs.length = w.graphs.length
  sinks : x.sinks.length = w.sinks.length
  subscribers : x.subscribers = w.subscribers
  writes : x.writes = w.writes

theorem Shaped.refl (w : Workspace) : w.Shaped w := ⟨rfl, rfl, rfl, rfl⟩

theorem Shaped.trans (hwx : w.Shaped x) (hxy : x.Shaped y) : w.Shaped y where
  graphs := hxy.graphs.trans hwx.graphs
  sinks := hxy.sinks.trans hwx.sinks
  subscribers := hxy.subscribers.trans hwx.subscribers
  writes := hxy.writes.trans hwx.writes

theorem shaped_withStore (w : Workspace) (g : GraphId) (s : Store) : w.Shaped (w.withStore g s) :=
  ⟨List.length_modify .., rfl, funext (fun k => subscribers_withStore w g k s), rfl⟩

theorem shaped_hear (w : Workspace) (event : Event) (seen : Nat) (j : SinkId) :
    w.Shaped (w.hear event seen j) := by
  refine ⟨rfl, List.length_modify .., rfl, funext (fun i => ?_)⟩
  rw [writes, hear, sink_withSink]
  split
  · next h => rw [writes, h.1]
  · rfl

theorem Unfolds.shaped (hu : Unfolds writes w errand changes x) : w.Shaped x := by
  induction hu with
  | done w => exact .refl w
  | refused _ _ ih => exact ih
  | silent _ _ _ ih => exact (shaped_withStore _ _ _).trans ih
  | heard _ _ _ _ iht ih => exact ((shaped_withStore _ _ _).trans iht).trans ih
  | told w _ => exact .refl w
  | next _ _ _ iha ih => exact ((shaped_hear _ _ _ _).trans iha).trans ih

/-- Writing the store of some graph leads that of the graph in question there. -/
theorem led_withStore {g k : GraphId} (hg : g < w.graphs.length) {c : Call} {o : Outcome}
    (hc : (w.store k).call c = .ok o) :
    (w.store g).Led (if k = g then o.event.toList else []) ((w.withStore k o.store).store g) := by
  by_cases hk : k = g
  · subst hk
    rw [if_pos rfl, store_withStore hg]
    exact Store.led_of_call hc
  · rw [if_neg hk, store_withStore_of_ne hk]
    exact .refl _

/-- The changes of each graph are listed in the order in which its store went through them. -/
theorem Unfolds.led (hu : Unfolds writes w errand changes x) {g : GraphId}
    (hg : g < w.graphs.length) : (w.store g).Led (eventsOf g changes) (x.store g) := by
  induction hu with
  | done w => exact .refl _
  | refused _ _ ih => exact ih hg
  | @silent w x k c rest o later call quiet _ ih =>
    have hs := led_withStore hg call
    rw [quiet, Option.toList_none, ite_self] at hs
    exact hs.trans (ih ((shaped_withStore w k o.store).graphs ▸ hg))
  | @heard w x y k c rest o event answers later call news told _ iht ih =>
    have hs := led_withStore hg call
    rw [news, Option.toList_some] at hs
    have hw := shaped_withStore w k o.store
    rw [eventsOf_cons, eventsOf_append]
    exact hs.trans ((iht (hw.graphs ▸ hg)).trans (ih ((hw.trans told.shaped).graphs ▸ hg)))
  | told w _ => exact .refl _
  | next _ answered _ iha ih =>
    have hy := (shaped_hear _ _ _ _).trans answered.shaped
    rw [eventsOf_append]
    exact (iha hg).trans (ih (hy.graphs ▸ hg))

/-- What the recorders' journals gain while an errand unfolds. -/
def Gains (writes : SinkId → Bool) (w x : Workspace) (heard : SinkId → List Event) : Prop :=
  ∀ i < w.sinks.length, writes i = false →
    (x.sink i).journal = (w.sink i).journal ++ heard i

variable {f h : SinkId → List Event}

theorem Gains.refl (w : Workspace) : w.Gains writes w (fun _ => []) :=
  fun _ _ _ => (List.append_nil _).symm

theorem Gains.trans (hwx : Gains writes w x f) (hl : x.sinks.length = w.sinks.length)
    (hxy : Gains writes x y h) : Gains writes w y (fun i => f i ++ h i) := by
  intro i hi hw
  rw [hxy i (hl ▸ hi) hw, hwx i hi hw, List.append_assoc]

theorem journal_hear {i : SinkId} (hi : i < w.sinks.length) (event : Event) (seen : Nat)
    (j : SinkId) : ((w.hear event seen j).sink i).journal =
      (w.sink i).journal ++ if j = i then [event] else [] := by
  rw [hear, sink_withSink]
  by_cases he : j = i
  · rw [if_pos ⟨he, hi⟩, if_pos he, he]
  · rw [if_neg (fun h => he h.1), if_neg he, List.append_nil]

/-- What the recorders hear while an errand unfolds: of calls, what they hear of the changes; of
an event that is told, the event woven into what they hear of the answers. -/
def Accounted (w : Workspace) (writes : SinkId → Bool) (changes : List Change) (x : Workspace) :
    Errand → Prop
  | .calls _ => ∃ heard, Heard writes w.subscribers changes heard ∧ Gains writes w x heard
  | .tell event sinks => ∃ echoes : List Echo,
      (∀ e ∈ echoes, Heard writes w.subscribers e.changes e.heard) ∧
      changes = echoes.flatMap Echo.changes ∧
      (sinks.filter writes).length = echoes.length ∧
      Gains writes w x (woven writes event sinks echoes)

theorem Unfolds.accounted (hu : Unfolds writes w errand changes x) :
    w.Accounted writes changes x errand := by
  induction hu with
  | done w => exact ⟨_, heard_nil, .refl w⟩
  | refused _ _ ih => exact ih
  | @silent w x g c rest o later _ _ _ ih =>
    obtain ⟨heard, hh, hg⟩ := ih
    rw [(shaped_withStore w g o.store).subscribers] at hh
    exact ⟨heard, hh, hg⟩
  | @heard w x y g c rest o event answers later _ _ told _ iht ih =>
    obtain ⟨echoes, he, rfl, hl, hg⟩ := iht
    obtain ⟨heard, hh, hg'⟩ := ih
    have hs := (shaped_withStore w g o.store).trans told.shaped
    rw [(shaped_withStore w g o.store).subscribers] at he
    rw [hs.subscribers] at hh
    exact ⟨_, (heard_change g event he hl).append hh, hg.trans told.shaped.sinks hg'⟩
  | told w event =>
    exact ⟨[], by simp, rfl, rfl, .refl w⟩
  | @next w x y event j rest seen answer answers later able answered _ iha ih =>
    have hj := shaped_hear w event seen j
    have hy := hj.trans answered.shaped
    obtain ⟨echoes, he, rfl, hl, hg⟩ := ih
    rw [hy.subscribers] at he
    cases hw : writes j with
    | true =>
      -- The sinks behind it hear of its answer before they hear of the event.
      obtain ⟨heard, hh, hg'⟩ := iha
      refine ⟨⟨answers, heard⟩ :: echoes, ?_, rfl, ?_, ?_⟩
      · exact List.forall_mem_cons.mpr ⟨hh, he⟩
      · rw [List.filter_cons_of_pos hw, List.length_cons, List.length_cons, hl]
      · intro i hi hn
        have hne : j ≠ i := ne_of_writes hw hn
        rw [hg i (hy.sinks ▸ hi) hn, hg' i (hj.sinks ▸ hi) hn, journal_hear hi, if_neg hne,
          List.append_nil, woven_cons_writer event hw, List.append_assoc]
    | false =>
      -- A sink that does not write has no answer.
      obtain rfl : answer = [] := by
        by_contra hne
        rw [able hne] at hw
        cases hw
      cases answered
      refine ⟨echoes, he, rfl, ?_, ?_⟩
      · rw [List.filter_cons_of_neg (by simp [hw]), hl]
      · intro i hi hn
        rw [hg i (hy.sinks ▸ hi) hn, journal_hear hi]
        by_cases hij : j = i
        · subst hij
          rw [if_pos rfl, woven_cons_self event hn, List.append_assoc, List.singleton_append]
        · rw [if_neg hij, woven_cons_other event hw hij, List.append_nil]

section Reactions

variable {g : GraphId} {i : SinkId} {event : Event}

/-- Sinks that only record answer nothing. -/
theorem unfolds_record (writes : SinkId → Bool) (event : Event) (sinks : List SinkId)
    (w : Workspace) : Unfolds writes w (.tell event sinks) [] (sinks.foldl (record event) w) := by
  induction sinks generalizing w with
  | nil => exact .told w event
  | cons j rest ih =>
    have hd : Unfolds writes (w.hear event (w.sink j).seen j) (.calls []) [] (w.record event j) :=
      .done _
    exact .next (fun h => absurd rfl h) hd (ih (w.record event j))

theorem withSink_withSink (w : Workspace) (i : SinkId) (a b : Sink) :
    (w.withSink i a).withSink i b = w.withSink i b := by
  simp only [withSink, List.modify_modify_eq]
  rfl

theorem lt_length_of_reaction {r : Reaction} (hr : (w.sink i).reaction = some r) :
    i < w.sinks.length := by
  by_contra hn
  rw [sink, List.getElem?_eq_none (Nat.le_of_not_lt hn)] at hr
  cases hr

/-- Recording an event and then counting it is hearing it. -/
theorem withSink_record (hi : i < w.sinks.length) (event : Event) :
    (w.record event i).withSink i ⟨((w.record event i).sink i).journal,
      ((w.record event i).sink i).reaction, ((w.record event i).sink i).seen + 1⟩ =
      w.hear event ((w.sink i).seen + 1) i := by
  have hs : (w.record event i).sink i =
      ⟨(w.sink i).journal ++ [event], (w.sink i).reaction, (w.sink i).seen⟩ := by
    rw [record, sink_withSink, if_pos ⟨rfl, hi⟩]
  rw [hs, record, withSink_withSink, hear]

/-- What a sink does about an event is to hear of it and to answer with one call at most. -/
theorem deliver_unfolds (w : Workspace) (event : Event) (i : SinkId) :
    ∃ seen answer answers, (answer ≠ [] → w.writes i = true) ∧
      Unfolds w.writes (w.hear event seen i) (.calls answer) answers (w.deliver event i) := by
  have hs : w.Shaped (w.record event i) := shaped_hear w event (w.sink i).seen i
  rw [deliver, react]
  cases ha : reactionTo? ((w.record event i).sink i) event with
  | none => exact ⟨(w.sink i).seen, [], [], fun h => absurd rfl h, .done _⟩
  | some found =>
    obtain ⟨r, e⟩ := found
    have hr := reaction_of_reactionTo? ha
    have hw : w.writes i = true := by
      rw [← hs.writes, writes, hr]
      rfl
    have hcount := withSink_record (hs.sinks ▸ lt_length_of_reaction hr) event
    dsimp only
    rw [hcount]
    generalize Value.ofInteger _ = value
    generalize hx : w.hear event ((w.sink i).seen + 1) i = x
    refine ⟨(w.sink i).seen + 1, [(r.graph, .perform (.setProperty e.origin r.key value))], ?_⟩
    rw [hx]
    cases hp : (x.store r.graph).setProperty e.origin r.key value with
    | error error =>
      refine ⟨[], fun _ => hw, .refused (e := error) ?_ (.done x)⟩
      rw [Store.call, Store.perform, hp]
      rfl
    | ok written =>
      obtain ⟨s, update⟩ := written
      have hc : (x.store r.graph).call (.perform (.setProperty e.origin r.key value)) =
          .ok ⟨s, .done, some update⟩ := by
        rw [Store.call, Store.perform, hp]
        rfl
      have told := unfolds_record w.writes update (x.subscribers r.graph) (x.withStore r.graph s)
      rw [← subscribers_withStore x r.graph r.graph s, ← recordAll, subscribers_withStore] at told
      exact ⟨_, fun _ => hw, .heard hc rfl told (.done _)⟩

theorem tell_unfolds (w : Workspace) (event : Event) (sinks : List SinkId) :
    ∃ changes, Unfolds w.writes w (.tell event sinks) changes (sinks.foldl (deliver event) w) := by
  induction sinks generalizing w with
  | nil => exact ⟨[], .told w event⟩
  | cons j rest ih =>
    obtain ⟨seen, answer, answers, able, answered⟩ := deliver_unfolds w event j
    obtain ⟨later, onward⟩ := ih (w.deliver event j)
    rw [((shaped_hear w event seen j).trans answered.shaped).writes] at onward
    exact ⟨answers ++ later, .next able answered onward⟩

theorem settle_unfolds {c : Call} {o : Outcome} (hc : (w.store g).call c = .ok o)
    {rest : List (GraphId × Call)} {later : List Change}
    (onward : Unfolds w.writes (w.settle g o) (.calls rest) later x) :
    ∃ changes, Unfolds w.writes w (.calls ((g, c) :: rest)) changes x := by
  rw [settle] at onward
  cases he : o.event with
  | none =>
    rw [he] at onward
    exact ⟨later, .silent hc he onward⟩
  | some event =>
    rw [he] at onward
    dsimp only [announce] at onward
    rw [subscribers_withStore] at onward
    obtain ⟨answers, told⟩ := tell_unfolds (w.withStore g o.store) event (w.subscribers g)
    exact ⟨_, .heard hc he told onward⟩

theorem called_eq (w : Workspace) (g : GraphId) (c : Call) :
    w.called (g, c) = match (w.store g).call c with
      | .error _ => w
      | .ok o => w.settle g o := by
  cases c with
  | perform m =>
    rw [called, Workspace.perform, Store.call]
    cases (w.store g).perform m <;> rfl
  | apply event =>
    rw [called, Workspace.apply, Store.call]
    cases (w.store g).apply event <;> rfl

theorem shaped_called (w : Workspace) (g : GraphId) (c : Call) : w.Shaped (w.called (g, c)) := by
  rw [called_eq]
  cases hc : (w.store g).call c with
  | error e => exact .refl w
  | ok o =>
    obtain ⟨_, hu⟩ := settle_unfolds hc (.done (w.settle g o))
    exact hu.shaped

/-- Calls whose events reach sinks with reactions unfold as calls whose events reach sinks that
write what they like. -/
theorem calls_unfold (w : Workspace) (calls : List (GraphId × Call)) :
    ∃ changes, Unfolds w.writes w (.calls calls) changes (calls.foldl called w) := by
  induction calls generalizing w with
  | nil => exact ⟨[], .done w⟩
  | cons gc rest ih =>
    obtain ⟨g, c⟩ := gc
    obtain ⟨later, onward⟩ := ih (w.called (g, c))
    rw [(shaped_called w g c).writes] at onward
    rw [List.foldl_cons]
    rw [called_eq] at onward ⊢
    cases hc : (w.store g).call c with
    | error e =>
      rw [hc] at onward
      exact ⟨later, .refused hc onward⟩
    | ok o =>
      rw [hc] at onward
      exact settle_unfolds hc onward

end Reactions

/-- While calls unfold, each store goes through the changes of its graph in their order. Each
recorder hears of all changes, as often as it is subscribed; it hears of them in their order if no
sink that writes is told before it. Two recorders that stand alike among the sinks that write hold
the same journal. -/
theorem recorders_hear_changes {calls : List (GraphId × Call)}
    (hu : Unfolds writes w (.calls calls) changes x) :
    (∀ g < w.graphs.length, (w.store g).Led (eventsOf g changes) (x.store g)) ∧
    (∀ i < w.sinks.length, writes i = false → ∃ heard,
      (x.sink i).journal = (w.sink i).journal ++ heard ∧
      heard.Perm (due w.subscribers i changes) ∧
      ((∀ g, Foremost writes i (w.subscribers g)) → heard = due w.subscribers i changes)) ∧
    (∀ i < w.sinks.length, ∀ k < w.sinks.length, writes i = false → writes k = false →
      (∀ g, standing writes i (w.subscribers g) = standing writes k (w.subscribers g)) →
      (w.sink i).journal = (w.sink k).journal → (x.sink i).journal = (x.sink k).journal) := by
  obtain ⟨heard, hh, hg⟩ := hu.accounted
  refine ⟨fun g hg => hu.led hg, ?_, ?_⟩
  · intro i hi hw
    exact ⟨heard i, hg i hi hw, hh.all i hw, hh.inOrder i hw⟩
  · intro i hi k hk hwi hwk hs hj
    rw [hg i hi hwi, hg k hk hwk, hh.alike i k hwi hwk hs, hj]

/-- A sink counts the edges at their origins. One recorder is told before it, two are told behind
it and hold the same journal. -/
theorem recorders_around_a_counter :
    let recorder : Sink := ⟨[], none, 0⟩
    let w := Workspace.mk [⟨.empty, [0, 1, 2, 3]⟩]
      [recorder, ⟨[], some ⟨0, .makeEdge, "n"⟩, 0⟩, recorder, recorder] [] countedUuid
    let calls : List (GraphId × Call) := [(0, .perform (.setVertex "a" "Person" [])),
      (0, .perform (.setEdge ⟨"a", "a", "likes"⟩))]
    let x := calls.foldl called w
    ∃ changes, Unfolds w.writes w (.calls calls) changes x ∧
      (x.sink 0).journal = due w.subscribers 0 changes ∧
      (x.sink 2).journal = (x.sink 3).journal := by
  intro recorder w calls x
  obtain ⟨changes, hu⟩ := calls_unfold w calls
  obtain ⟨_, heach, halike⟩ := recorders_hear_changes hu
  refine ⟨changes, hu, ?_, ?_⟩
  · obtain ⟨heard, hj, _, hin⟩ := heach 0 (by decide) rfl
    have hf : ∀ g, Foremost w.writes 0 (w.subscribers g)
      | 0 => by decide
      | _ + 1 => .nil
    rw [hj, hin hf]
    rfl
  · have hs : ∀ g, standing w.writes 2 (w.subscribers g) = standing w.writes 3 (w.subscribers g)
      | 0 => by decide
      | _ + 1 => rfl
    exact halike 2 (by decide) 3 (by decide) rfl rfl hs rfl

/-- Behind a sink that counts the edges at their origins, a recorder hears of the count before it
hears of the edge. -/
theorem recorder_behind_counter_hears_late :
    let w := Workspace.mk [⟨.empty, [0, 1, 2]⟩]
      [⟨[], none, 0⟩, ⟨[], some ⟨0, .makeEdge, "n"⟩, 0⟩, ⟨[], none, 0⟩] [] countedUuid
    let x := w.run 0 [.setVertex "a" "Person" [], .setEdge ⟨"a", "a", "likes"⟩]
    (x.sink 0).journal.map Event.kind = [.createNode, .makeEdge, .updateNode] ∧
      (x.sink 2).journal.map Event.kind = [.createNode, .updateNode, .makeEdge] := by
  decide

end Workspace

end PropertyGraph
