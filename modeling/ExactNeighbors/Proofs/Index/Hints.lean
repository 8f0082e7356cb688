import ExactNeighbors.Proofs.Index.Answers
import ExactNeighbors.Proofs.Ranking.Serving

set_option autoImplicit false

/-! # Hints are invisible

How many points a block holds, how many are expected and how many pieces of a scan may run at a time
decide where every point lies and how every scan is made, but no answer. Two indexes whose settings
differ in these only are put through the same session, in which points are added, questions asked and
batches opened and served, in any order; they reply alike throughout, errors included
(`Session.hints_invisible`). Each request to either of them may find another machine, with other
threads, another cut and other tables.

This is a simulation. The two stores always hold the same rows, though in other blocks
(`Index.Alike`). One request is the step (`Session.Alike.handle`): what is asked is answered from the
ranking of the rows, in which the order of the candidates is lost, and a point that is added is added
to the rows, in the same place. -/

namespace ExactNeighbors

/-! ## Sessions -/

/-- An index and the batches it opened, in the order they were opened. -/
structure Session where
  index : Index
  opened : Array Batches

namespace Session

/-- What is asked for in a session. -/
inductive Request where
  | add (label : Label) (point : Point)
  | nearest (query : Point) (k : Nat)
  | within (query : Point) (radius : Single)
  | batches (query : Point)
  /-- A request to batches that were opened before. -/
  | serve (which : Nat) (request : Batches.Request)
  | distanceFrom (label : Label) (query : Point)
  | points (label : Label)
  | containsLabel (label : Label)

/-- What comes back. Of batches that is, beside what they serve, all they can be asked about. -/
inductive Reply where
  | refused (e : Error)
  | added
  | neighbors (ns : List Neighbor)
  | opened (b : Batches)
  | served (batch : List Neighbor) (b : Batches)
  | restarted (b : Batches)
  /-- No such batches were opened. -/
  | unopened
  | distance (d : Option Single)
  | points (ps : Option (List Point))
  | containsLabel (known : Bool)

/-- The reply to a question, or the error in its place. -/
def Reply.ofExcept {α : Type} (reply : α → Reply) : Except Error α → Reply
  | .ok a => reply a
  | .error e => .refused e

/-- Batches after a request to them, and their reply. -/
def serve (b : Batches) : Batches.Request → Reply × Batches
  | .next n arrangement =>
    match b.next n arrangement with
    | .ok (batch, b') => (.served batch b', b')
    | .error e => (.refused e, b)
  | .reset => (.restarted b.reset, b.reset)

/-- The session after a request, and the reply. -/
def handle (s : Session) : Request → Reply × Session
  | .add label point =>
    match s.index.add point label with
    | .ok i => (.added, { s with index := i })
    | .error e => (.refused e, s)
  | .nearest query k => (.ofExcept .neighbors (s.index.nearest query k), s)
  | .within query radius => (.ofExcept .neighbors (s.index.within query radius), s)
  | .batches query =>
    match s.index.batches query with
    | .ok b => (.opened b, { s with opened := s.opened.push b })
    | .error e => (.refused e, s)
  | .serve which request =>
    match s.opened[which]? with
    | some b =>
      let (reply, b') := serve b request
      (reply, { s with opened := s.opened.setIfInBounds which b' })
    | none => (.unopened, s)
  | .distanceFrom label query => (.ofExcept .distance (s.index.distanceFrom label query), s)
  | .points label => (.points (s.index.points? label), s)
  | .containsLabel label => (.containsLabel (s.index.containsLabel label), s)

/-- The same session on another machine. -/
def on (s : Session) (machine : Machine) : Session := { s with index := s.index.on machine }

/-- The replies to some requests in turn, each on a machine of its own. -/
def replies (s : Session) : List (Machine × Request) → List Reply
  | [] => []
  | (machine, r) :: rest =>
    ((s.on machine).handle r).1 :: ((s.on machine).handle r).2.replies rest

end Session

namespace Index

/-! ## Indexes of the same rows -/

/-- The settings agree in all but the hints, and the stores hold the same rows. -/
structure Alike (i j : Index) : Prop where
  dimension : i.settings.dimension = j.settings.dimension
  metric : i.settings.metric = j.settings.metric
  mode : i.settings.mode = j.settings.mode
  left : i.store.dimension = i.settings.dimension.toNat
  right : j.store.dimension = j.settings.dimension.toNat
  rows : ∃ rows, i.store.Holds rows ∧ j.store.Holds rows

variable {i j : Index}

namespace Alike

theorem prepare (h : Alike i j) (point : Point) : i.prepare point = j.prepare point := by
  rw [Index.prepare, Index.prepare, h.dimension, h.metric]

theorem on (h : Alike i j) (machine machine' : Machine) : Alike (i.on machine) (j.on machine') :=
  ⟨h.dimension, h.metric, h.mode, h.left, h.right, h.rows⟩

/-- The candidates are the same, though tables of labels may list them in different orders. -/
theorem ranking (h : Alike i j) (query : Point) : i.ranking query = j.ranking query := by
  obtain ⟨rows, hi, hj⟩ := h.rows
  have hdistances : i.distances query = j.distances query := by
    rw [distances_eq hi, distances_eq hj, h.metric]
  cases hmode : i.settings.mode with
  | single =>
      rw [Index.ranking, Index.ranking, candidates, candidates, ← h.mode, hmode, hdistances]
  | multi =>
      have hcount : i.store.labelCount = j.store.labelCount := by
        rw [hi.labelCount_eq, hj.labelCount_eq]
      rw [ranking_multi hmode, ranking_multi (h.mode ▸ hmode), hdistances, hcount]

theorem points? (h : Alike i j) (label : Label) : i.points? label = j.points? label := by
  obtain ⟨rows, hi, hj⟩ := h.rows
  rw [points?_eq hi, points?_eq hj]

theorem containsLabel (h : Alike i j) (label : Label) :
    i.containsLabel label = j.containsLabel label := by
  obtain ⟨rows, hi, hj⟩ := h.rows
  rw [Bool.eq_iff_iff, Index.containsLabel, Index.containsLabel, hi.containsLabel_iff,
    hj.containsLabel_iff]

theorem nearest (h : Alike i j) (query : Point) (k : Nat) : i.nearest query k = j.nearest query k := by
  simp only [nearest_eq, h.prepare, h.ranking]

theorem within (h : Alike i j) (query : Point) (radius : Single) :
    i.within query radius = j.within query radius := by
  simp only [within_eq, h.prepare, h.ranking]

theorem batches (h : Alike i j) (query : Point) : i.batches query = j.batches query := by
  simp only [batches_eq, h.prepare, h.ranking]

theorem distanceFrom (h : Alike i j) (label : Label) (query : Point) :
    i.distanceFrom label query = j.distanceFrom label query := by
  simp only [Index.distanceFrom, h.prepare, h.points?, h.metric]

/-- A point is refused by both with the same error or added to both in the same place. -/
theorem add (h : Alike i j) (point : Point) (label : Label) :
    (∃ e, i.add point label = .error e ∧ j.add point label = .error e) ∨
      ∃ i' j', i.add point label = .ok i' ∧ j.add point label = .ok j' ∧ Alike i' j' := by
  obtain ⟨rows, hi, hj⟩ := h.rows
  cases hcheck : point.check i.settings.dimension.toNat with
  | error e =>
      refine Or.inl ⟨e, add_eq_error hcheck label, add_eq_error ?_ label⟩
      rw [← h.dimension, hcheck]
  | ok _ =>
      have hcheck' : point.check j.settings.dimension.toNat = .ok () := by
        rw [← h.dimension, hcheck]
      obtain ⟨s, hadd, hleft, hs⟩ := add_eq_ok h.left hi hcheck label
      obtain ⟨t, hadd', hright, ht⟩ := add_eq_ok h.right hj hcheck' label
      rw [← h.metric, ← h.mode] at ht
      exact Or.inr ⟨_, _, hadd, hadd', h.dimension, h.metric, h.mode, hleft.trans h.left,
        hright.trans h.right, _, hs, ht⟩

end Alike

end Index

namespace Session

/-! ## Sessions of such indexes -/

/-- The indexes hold the same rows and the same batches were opened. -/
structure Alike (s t : Session) : Prop where
  index : s.index.Alike t.index
  opened : s.opened = t.opened

variable {s t : Session}

/-- One request is replied to alike and leads to sessions that are alike. -/
theorem Alike.handle (h : Alike s t) (r : Request) :
    (s.handle r).1 = (t.handle r).1 ∧ Alike (s.handle r).2 (t.handle r).2 := by
  cases r with
  | add label point =>
      rcases h.index.add point label with ⟨e, hs, ht⟩ | ⟨i, j, hs, ht, hij⟩
      · rw [Session.handle, Session.handle, hs, ht]
        exact ⟨rfl, h⟩
      · rw [Session.handle, Session.handle, hs, ht]
        exact ⟨rfl, hij, h.opened⟩
  | nearest query k =>
      rw [Session.handle, Session.handle, h.index.nearest]
      exact ⟨rfl, h⟩
  | within query radius =>
      rw [Session.handle, Session.handle, h.index.within]
      exact ⟨rfl, h⟩
  | batches query =>
      rw [Session.handle, Session.handle, h.index.batches]
      cases t.index.batches query with
      | error e => exact ⟨rfl, h⟩
      | ok b => exact ⟨rfl, h.index, congrArg (·.push b) h.opened⟩
  | serve which request =>
      rw [Session.handle, Session.handle, h.opened]
      cases t.opened[which]? with
      | none => exact ⟨rfl, h⟩
      | some b => exact ⟨rfl, h.index, rfl⟩
  | distanceFrom label query =>
      rw [Session.handle, Session.handle, h.index.distanceFrom]
      exact ⟨rfl, h⟩
  | points label =>
      rw [Session.handle, Session.handle, h.index.points?]
      exact ⟨rfl, h⟩
  | containsLabel label =>
      rw [Session.handle, Session.handle, h.index.containsLabel]
      exact ⟨rfl, h⟩

theorem Alike.replies (h : Alike s t) {asked asked' : List (Machine × Request)}
    (same : asked.map Prod.snd = asked'.map Prod.snd) : s.replies asked = t.replies asked' := by
  induction asked generalizing s t asked' with
  | nil =>
      obtain rfl : asked' = [] := List.map_eq_nil_iff.1 same.symm
      rfl
  | cons r rs ih =>
      obtain ⟨r', rs', rfl, hsame, hrest⟩ := List.map_eq_cons_iff.1 same.symm
      have hon : Alike (s.on r.1) (t.on r'.1) := ⟨h.index.on r.1 r'.1, h.opened⟩
      obtain ⟨hreply, hnext⟩ := hon.handle r.2
      rw [Session.replies, Session.replies, hsame, hreply, ih hnext hrest.symm]

/-- **Hints are invisible.** Two indexes created from settings of the same dimension, metric and mode
    give the same replies to any requests, whatever the sizes, the numbers of threads and the machines
    that meet each request. -/
theorem hints_invisible {machine machine' : Machine} {settings settings' : Settings} {i j : Index}
    (created : Index.create machine settings = .ok i)
    (created' : Index.create machine' settings' = .ok j)
    (dimension : settings.dimension = settings'.dimension)
    (metric : settings.metric = settings'.metric) (mode : settings.mode = settings'.mode)
    {asked asked' : List (Machine × Request)}
    (requests : asked.map Prod.snd = asked'.map Prod.snd) :
    replies ⟨i, #[]⟩ asked = replies ⟨j, #[]⟩ asked' := by
  obtain ⟨rfl, hleft, hi⟩ := Index.store_of_create created
  obtain ⟨rfl, hright, hj⟩ := Index.store_of_create created'
  have halike : Alike ⟨i, #[]⟩ ⟨j, #[]⟩ :=
    ⟨⟨dimension, metric, mode, hleft, hright, [], hi, hj⟩, rfl⟩
  exact halike.replies requests

/-- A machine whose tables list their labels backwards. -/
def backwards : Machine :=
  { Machine.small with
    tables := { Tables.upTo 4096 with listing := List.reverse, listing_perm := List.reverse_perm } }

/-- One row a block, and several, and the labels listed forwards and backwards: a label shared, a
    point refused, batches served in between. -/
theorem hints_invisible_layouts :
    let rows : List Row := [(7, [Binary.one]), (9, [.one]), (7, [.zero false])]
    let requests : List Request := rows.map (fun r => .add r.1 r.2) ++
      [.batches [Binary.one], .add 8 [.one], .add 7 [], .serve 0 (.next 1 .byRank),
        .serve 0 (.next 0 .byLabel), .nearest [.one] 5, .distanceFrom 7 [.one]]
    ∃ i j, Index.create .small { dimension := 1, mode := .multi, blockSize := 1 } = .ok i ∧
      Index.create backwards
        { dimension := 1, mode := .multi, blockSize := 3, initialCapacity := 5,
          numThreads := some 2 } = .ok j ∧
      replies ⟨i, #[]⟩ (requests.map (.small, ·)) =
        replies ⟨j, #[]⟩ (requests.map (backwards, ·)) ∧
      (i.run rows).store.blocks.size = 3 ∧ (j.run rows).store.blocks.size = 1 ∧
      ((j.run rows).on backwards).candidates [.one] =
        (((i.run rows).on .small).candidates [.one]).reverse := by
  intro rows requests
  obtain ⟨i, created⟩ : ∃ i, Index.create .small
      { dimension := 1, mode := .multi, blockSize := 1 } = .ok i := ⟨_, rfl⟩
  obtain ⟨j, created'⟩ : ∃ j, Index.create backwards
      { dimension := 1, mode := .multi, blockSize := 3, initialCapacity := 5,
        numThreads := some 2 } = .ok j := ⟨_, rfl⟩
  have hrequests : (requests.map (Machine.small, ·)).map Prod.snd =
      (requests.map (backwards, ·)).map Prod.snd := by
    simp [Function.comp_def]
  refine ⟨i, j, created, created',
    hints_invisible created created' rfl rfl rfl hrequests, ?_, ?_, ?_⟩
  · cases created
    decide +kernel
  · cases created'
    decide +kernel
  · have hi : ((i.run rows).on .small).settings.mode = .multi ∧
        ((i.run rows).on .small).store.labelCount = 2 ∧
        ((i.run rows).on .small).distances [.one] =
          [⟨7, .zero false⟩, ⟨9, .zero false⟩, ⟨7, .one⟩] := by
      cases created
      decide +kernel
    have hj : ((j.run rows).on backwards).settings.mode = .multi ∧
        ((j.run rows).on backwards).store.labelCount = 2 ∧
        ((j.run rows).on backwards).distances [.one] =
          [⟨7, .zero false⟩, ⟨9, .zero false⟩, ⟨7, .one⟩] := by
      cases created'
      decide +kernel
    rw [Index.candidates_multi hi.1, Index.candidates_multi hj.1, hi.2.1, hj.2.1, hi.2.2, hj.2.2]
    rfl

end Session

end ExactNeighbors
