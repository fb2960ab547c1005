import TifaSoccer.Database.CompoundWriteTheorems

/-!
# Pending writes are a queue

The pending writes of an `FRepo` are a queue: a write joins it at the end, the server's answer
takes the oldest one away. Whatever has happened, `visibleWrites` is the layer of the writes in
the queue, although `removeWriteId` builds it anew only if the removed write overlaps with
another one, and `calculateCompleteEventCacheAtPath` shows the server's data with the writes of
the queue made one after the other.

The keys of an update are single components here. With a longer key an update above a write can
reach below it; `removeWriteId` does not notice that and drops the pending child.
-/

namespace TifaSoccer

variable {K V : Type} [LinearOrder K]

/-! ## Records -/

/-- The record stands for the writes, in this order. -/
inductive FWriteRecord.Represents : FWriteRecord K V → List (List K × Json K V) → Prop
  | overwrite (writeId : ℤ) (path : List K) {node : FNode K V} {v : Json K V}
      (hv : node.Represents v.root) :
      Represents ⟨writeId, path, .overwrite node, true⟩ [(path, v)]
  | merge (writeId : ℤ) (path : List K) {m : FCompoundWrite K V} {M : Writes K V}
      (hm : m.Represents M) (plain : ∀ e ∈ m.enumerateWrites, e.1.length = 1) :
      Represents ⟨writeId, path, .merge m, true⟩ (FCompoundWrite.writesAt path (m.writesOf M))

namespace FWriteRecord

variable {record : FWriteRecord K V} {ws : List (List K × Json K V)}

/-- The records that stand for writes are visible. -/
theorem Represents.visible (h : record.Represents ws) : record.visible = true := by
  cases h <;> rfl

/-- A record writes at its path or one step below. -/
theorem Represents.path_cases (h : record.Represents ws) {w : List K × Json K V} (hw : w ∈ ws) :
    w.1 = record.path ∨ ∃ k, w.1 = record.path ++ [k] := by
  cases h with
  | overwrite writeId path hv =>
    obtain rfl := List.mem_singleton.mp hw
    exact .inl rfl
  | @merge writeId path m M hm plain =>
    obtain ⟨e, he, rfl⟩ := List.mem_map.mp hw
    obtain ⟨e', he', rfl⟩ := List.mem_map.mp he
    obtain ⟨k, hk⟩ := List.length_eq_one_iff.mp (plain e' he')
    exact .inr ⟨k, by rw [hk]⟩

/-- The path of a record is above its writes. -/
theorem Represents.prefix_of_mem (h : record.Represents ws) {w : List K × Json K V}
    (hw : w ∈ ws) : record.path <+: w.1 := by
  rcases h.path_cases hw with heq | ⟨k, heq⟩
  · rw [heq]
  · rw [heq]
    exact List.prefix_append _ _

/-- A record contains a path exactly if a write is at the path or above it. -/
theorem Represents.containsPath_iff (h : record.Represents ws) (path : List K) :
    FWriteTree.recordContainsPath record path = true ↔ ∃ w ∈ ws, w.1 <+: path := by
  cases h with
  | overwrite writeId p hv => simp [FWriteTree.recordContainsPath]
  | @merge writeId p m M hm plain =>
    simp only [FWriteTree.recordContainsPath, List.any_eq_true, List.isPrefixOf_iff_prefix,
      FCompoundWrite.writesAt, FCompoundWrite.writesOf, List.mem_map]
    constructor
    · rintro ⟨e, he, hpre⟩
      exact ⟨_, ⟨_, ⟨e, he, rfl⟩, rfl⟩, hpre⟩
    · rintro ⟨w, ⟨_, ⟨e, he, rfl⟩, rfl⟩, hpre⟩
      exact ⟨e, he, hpre⟩

/-- A write that neither covers `path` nor belongs to a record below it parts from it. -/
theorem Represents.diverge (h : record.Represents ws) {path : List K} {w : List K × Json K V}
    (hw : w ∈ ws) (hcover : ¬ w.1 <+: path) (hbelow : ¬ path <+: record.path) :
    Json.Diverge path w.1 := by
  rcases Json.prefix_or_diverge path w.1 with hpre | hpre | hdiv
  · rcases h.path_cases hw with heq | ⟨k, heq⟩
    · rw [heq] at hpre
      exact absurd hpre hbelow
    · rw [heq] at hpre hcover
      -- the only path below the record that is not below its own path is the written one
      rcases List.prefix_concat_iff.mp hpre with heq' | hpre
      · rw [heq'] at hcover
        exact absurd List.prefix_rfl hcover
      · exact absurd hpre hbelow
  · exact absurd hpre hcover
  · exact hdiv

end FWriteRecord

namespace FWriteTree

variable {w : FCompoundWrite K V} {W : Writes K V} {record : FWriteRecord K V}
  {records : List (FWriteRecord K V)} {ws : List (List K × Json K V)}
  {queue : List (List (List K × Json K V))}

/-! ## Building the layer anew -/

/-- One record adds its writes. -/
theorem represents_layerRecord (hw : w.Represents W) (h : record.Represents ws) :
    ∃ w', layerRecord [] w record = .ok w' ∧
      w'.Represents (ws.foldl (fun W e => W.add e.1 e.2) W) := by
  cases h with
  | overwrite writeId path hv => exact hw.addWrite hv path
  | merge writeId path hm plain => exact hw.addCompoundWrite hm path

/-- The tree made of all records is the layer of their writes. -/
theorem represents_layerTreeFromWrites (h : List.Forall₂ FWriteRecord.Represents records queue) :
    ∃ w, layerTreeFromWrites records defaultFilter [] = .ok w ∧
      w.Represents (Writes.layer queue.flatten) := by
  have hfilter : records.filter defaultFilter = records := by simp [defaultFilter]
  have hgen : ∀ (w : FCompoundWrite K V) (W : Writes K V), w.Represents W →
      ∃ w', records.foldlM (layerRecord []) w = .ok w' ∧
        w'.Represents (queue.flatten.foldl (fun W e => W.add e.1 e.2) W) := by
    induction h with
    | nil => exact fun w W hw => ⟨w, rfl, hw⟩
    | @cons record ws records queue hrecord hrecords ih =>
      intro w W hw
      obtain ⟨w₁, hw₁, h₁⟩ := represents_layerRecord hw hrecord
      obtain ⟨w', hw', h'⟩ := ih (by simp [defaultFilter]) w₁ _ h₁
      refine ⟨w', ?_, ?_⟩
      · rw [List.foldlM_cons, hw₁]
        exact hw'
      · rw [List.flatten_cons, List.foldl_append]
        exact h'
  rw [layerTreeFromWrites, hfilter]
  exact hgen _ _ FCompoundWrite.represents_emptyWrite

/-! ## Removing the oldest write -/

/-- A later write that contains the path of the removed one hides it. -/
theorem removeLoop_of_shadowed (writeToRemove : FWriteRecord K V)
    {l : List (FWriteRecord K V × ℕ)} (hvisible : ∀ e ∈ l, e.1.visible = true)
    (hcontains : ∃ e ∈ l, recordContainsPath e.1 writeToRemove.path = true) (overlaps : Bool) :
    (removeLoop writeToRemove 0 l true overlaps).1 = false := by
  induction l generalizing overlaps with
  | nil => simp at hcontains
  | cons e l ih =>
    obtain ⟨currentWrite, i⟩ := e
    have hcurrent : currentWrite.visible = true := hvisible _ List.mem_cons_self
    have hrest : ∀ e ∈ l, e.1.visible = true := fun e he => hvisible e (List.mem_cons_of_mem _ he)
    rw [removeLoop, hcurrent]
    by_cases hhead : recordContainsPath currentWrite writeToRemove.path = true
    · have hstop : ∀ l overlaps, (removeLoop writeToRemove 0 l false overlaps).1 = false := by
        intro l overlaps
        cases l <;> rfl
      simp only [Bool.not_true, Bool.false_eq_true, if_false, if_true, Nat.zero_le, hhead, and_self]
      exact hstop l overlaps
    · have htail : ∃ e ∈ l, recordContainsPath e.1 writeToRemove.path = true := by
        obtain ⟨e, he, hcontains⟩ := hcontains
        rcases List.mem_cons.mp he with rfl | he
        · exact absurd hcontains hhead
        · exact ⟨e, he, hcontains⟩
      simp only [Bool.not_true, Bool.false_eq_true, if_false, if_true, hhead, and_false]
      split_ifs
      · exact ih hrest htail true
      · exact ih hrest htail overlaps

/-- Otherwise the loop looks for a write below the removed one. -/
theorem removeLoop_of_visible (writeToRemove : FWriteRecord K V)
    {l : List (FWriteRecord K V × ℕ)} (hvisible : ∀ e ∈ l, e.1.visible = true)
    (hcontains : ∀ e ∈ l, recordContainsPath e.1 writeToRemove.path = false) (overlaps : Bool) :
    removeLoop writeToRemove 0 l true overlaps =
      (true, overlaps || l.any fun e => writeToRemove.path.isPrefixOf e.1.path) := by
  induction l generalizing overlaps with
  | nil => simp [removeLoop]
  | cons e l ih =>
    obtain ⟨currentWrite, i⟩ := e
    have hcurrent : currentWrite.visible = true := hvisible _ List.mem_cons_self
    have hhead : recordContainsPath currentWrite writeToRemove.path = false :=
      hcontains _ List.mem_cons_self
    have ih' := ih (fun e he => hvisible e (List.mem_cons_of_mem _ he))
      (fun e he => hcontains e (List.mem_cons_of_mem _ he))
    rw [removeLoop, hcurrent, hhead, List.any_cons]
    simp only [Bool.not_true, Bool.false_eq_true, if_false, if_true, and_false]
    split_ifs with hpre
    · rw [ih', hpre]
      simp
    · rw [ih', Bool.eq_false_iff.mpr hpre]
      simp

/-- The writes of a record that no other write is above or below are taken out of the layer. -/
theorem represents_remove (h : record.Represents ws) {rest : List (List K × Json K V)}
    (hw : w.Represents (Writes.layer (ws ++ rest)))
    (hrest : ∀ e ∈ rest, Json.Diverge record.path e.1) :
    ∃ w', (ws.map Prod.fst).foldlM FCompoundWrite.removeWriteAtPath w = .ok w' ∧
      w'.Represents (Writes.layer rest) := by
  obtain ⟨w', hw', h'⟩ := hw.removeWritesAtPaths (ws.map Prod.fst)
  refine ⟨w', hw', ?_⟩
  have habove : ∀ e ∈ ws, record.path <+: e.1 := fun e he => h.prefix_of_mem he
  rw [← Writes.layer_of_apart habove hrest]
  convert h' using 1
  funext q
  rw [Writes.erase, Writes.foldl_erase]
  by_cases hq : record.path <+: q
  · rw [if_pos hq]
    split_ifs with hmem
    · rfl
    · -- a write of the layer at or below the record's path is one of the record
      by_contra hsome
      rcases List.mem_append.mp (List.map_append ▸ Writes.mem_paths_of_layer (Ne.symm hsome))
        with hfirst | hrest'
      · exact hmem ⟨q, hfirst, List.prefix_rfl⟩
      · obtain ⟨e, he, rfl⟩ := List.mem_map.mp hrest'
        exact Json.not_diverge_of_prefix hq (hrest e he)
  · rw [if_neg hq, if_neg]
    rintro ⟨p, hp, hpre⟩
    obtain ⟨e, he, rfl⟩ := List.mem_map.mp hp
    exact hq ((habove e he).trans hpre)

/-- Each pending record stands for writes of the queue. -/
theorem exists_represents (hrecords : List.Forall₂ FWriteRecord.Represents records queue)
    {r : FWriteRecord K V} (hr : r ∈ records) : ∃ rws ∈ queue, r.Represents rws := by
  obtain ⟨i, hi, rfl⟩ := List.mem_iff_getElem.mp hr
  have hi' : i < queue.length := hrecords.length_eq ▸ hi
  exact ⟨queue[i], List.getElem_mem hi', List.Forall₂.get hrecords hi hi'⟩

/-- Where no record contains the path and none is below it, no pending write is above or below. -/
theorem diverge_of_apart (hrecords : List.Forall₂ FWriteRecord.Represents records queue)
    {path : List K} (hnot : ∀ r ∈ records, recordContainsPath r path = false)
    (hbelow : ∀ r ∈ records, ¬ path <+: r.path) : ∀ x ∈ queue.flatten, Json.Diverge path x.1 := by
  intro x hx
  obtain ⟨rws, hrws, hx⟩ := List.mem_flatten.mp hx
  obtain ⟨i, hi, rfl⟩ := List.mem_iff_getElem.mp hrws
  have hi' : i < records.length := hrecords.length_eq.symm ▸ hi
  have hrep := List.Forall₂.get hrecords hi' hi
  refine hrep.diverge hx ?_ (hbelow _ (List.getElem_mem hi'))
  intro hpre
  have hcontains := (hrep.containsPath_iff path).mpr ⟨x, hx, hpre⟩
  rw [List.get_eq_getElem, hnot _ (List.getElem_mem hi')] at hcontains
  cases hcontains

/-- Removing the oldest write leaves the layer of the others, in each of the three ways in which
it is done. -/
theorem represents_removeWriteId {t : FWriteTree K V} (hall : t.allWrites = record :: records)
    (hrecord : record.Represents ws)
    (hrecords : List.Forall₂ FWriteRecord.Represents records queue)
    (hw : t.visibleWrites.Represents (Writes.layer (ws ++ queue.flatten))) :
    ∃ t' needToReevaluate, t.removeWriteId record.writeId = .ok (t', needToReevaluate) ∧
      t'.allWrites = records ∧ t'.visibleWrites.Represents (Writes.layer queue.flatten) ∧
      (t'.lastWriteId = t.lastWriteId ∨
        t'.lastWriteId = (records.getLast?.map FWriteRecord.writeId).getD (-1)) := by
  have hindex : t.allWrites.findIdx? (fun r => decide (r.writeId = record.writeId)) = some 0 := by
    rw [hall, List.findIdx?_cons, if_pos (by simp)]
  have hobject : objectAtIndex t.allWrites 0 = .ok record := by
    rw [hall]
    rfl
  have herase : t.allWrites.eraseIdx 0 = records := by
    rw [hall]
    rfl
  -- the records of the loop
  have hloop_mem : ∀ e ∈ records.zipIdx.reverse, e.1 ∈ records := by
    intro e he
    exact List.fst_mem_of_mem_zipIdx (List.mem_reverse.mp he)
  have hvisible : ∀ e ∈ records.zipIdx.reverse, e.1.visible = true := by
    intro e he
    obtain ⟨rws, -, hr⟩ := exists_represents hrecords (hloop_mem e he)
    exact hr.visible
  have hin_loop : ∀ r ∈ records, ∃ e ∈ records.zipIdx.reverse, e.1 = r := by
    intro r hr
    have hr' : r ∈ records.zipIdx.map Prod.fst := by rwa [List.zipIdx_map_fst]
    obtain ⟨e, he, rfl⟩ := List.mem_map.mp hr'
    exact ⟨e, List.mem_reverse.mpr he, rfl⟩
  rw [removeWriteId, hindex]
  simp only [hobject, bind, Except.bind, herase, hrecord.visible]
  by_cases hshadow : ∃ r ∈ records, recordContainsPath r record.path = true
  · obtain ⟨r, hr, hcontains⟩ := hshadow
    obtain ⟨rws, hrws, hrep⟩ := exists_represents hrecords hr
    obtain ⟨e, he, rfl⟩ := hin_loop r hr
    rw [removeLoop_of_shadowed record hvisible ⟨e, he, hcontains⟩]
    refine ⟨_, _, rfl, rfl, ?_, .inl rfl⟩
    obtain ⟨x, hx, hpre⟩ := (hrep.containsPath_iff record.path).mp hcontains
    rw [← Writes.layer_of_shadowed (fun x hx => hrecord.prefix_of_mem hx)
      ⟨x, List.mem_flatten.mpr ⟨rws, hrws, hx⟩, hpre⟩]
    exact hw
  · have hnot : ∀ r ∈ records, recordContainsPath r record.path = false := by
      intro r hr
      rw [← Bool.not_eq_true]
      exact fun h => hshadow ⟨r, hr, h⟩
    rw [removeLoop_of_visible record hvisible fun e he => hnot e.1 (hloop_mem e he)]
    by_cases hoverlap : ∃ r ∈ records, record.path <+: r.path
    · obtain ⟨r, hr, hpre⟩ := hoverlap
      obtain ⟨e, he, rfl⟩ := hin_loop r hr
      have hany : (records.zipIdx.reverse.any fun e => record.path.isPrefixOf e.1.path) = true :=
        List.any_eq_true.mpr ⟨e, he, List.isPrefixOf_iff_prefix.mpr hpre⟩
      obtain ⟨w', hw', hrep'⟩ := represents_layerTreeFromWrites hrecords
      simp only [hany, Bool.or_true, Bool.not_true, Bool.false_eq_true, if_false, if_true,
        resetTree, hw', bind, Except.bind]
      exact ⟨_, _, rfl, rfl, hrep', .inr rfl⟩
    · have hany :
          (records.zipIdx.reverse.any fun e => record.path.isPrefixOf e.1.path) = false := by
        rw [List.any_eq_false]
        intro e he hpre
        exact hoverlap ⟨e.1, hloop_mem e he, List.isPrefixOf_iff_prefix.mp hpre⟩
      obtain ⟨w', hw', hrep'⟩ := represents_remove hrecord hw
        (diverge_of_apart hrecords hnot fun r hr hpre => hoverlap ⟨r, hr, hpre⟩)
      simp only [hany, Bool.or_false, Bool.not_true, Bool.false_eq_true, if_false]
      cases hrecord with
      | overwrite writeId path hv =>
        simp only [List.map_cons, List.map_nil, List.foldlM_cons, List.foldlM_nil, bind_pure] at hw'
        simp only [hw']
        exact ⟨_, _, rfl, rfl, hrep', .inl rfl⟩
      | @merge writeId path m M hm plain =>
        have hpaths : (FCompoundWrite.writesAt path (m.writesOf M)).map Prod.fst =
            m.enumerateWrites.map fun e => path ++ e.1 := by
          simp [FCompoundWrite.writesAt, FCompoundWrite.writesOf, Function.comp_def]
        rw [hpaths, List.foldlM_map] at hw'
        simp only [hw']
        exact ⟨_, _, rfl, rfl, hrep', .inl rfl⟩

end FWriteTree

/-! ## Runs -/

/-- A queue of writes: the writes of each pending record. -/
inductive QueueOp (K V : Type) [LinearOrder K] where
  | enqueue (ws : List (List K × Json K V))
  | dequeue
  | clear

/-- An update without writes is not queued. -/
def QueueOp.perform (queue : List (List (List K × Json K V))) :
    QueueOp K V → List (List (List K × Json K V))
  | .enqueue ws => if ws.isEmpty then queue else queue ++ [ws]
  | .dequeue => queue.tail
  | .clear => []

/-- What an operation does to the queue. -/
inductive WriteOp.Represents : WriteOp K V → QueueOp K V → Prop
  | set (path : List K) {node : FNode K V} {v : Json K V} (hv : node.Represents v.root) :
      Represents (.set path node) (.enqueue [(path, v)])
  | update (path : List K) {nodes : FCompoundWrite K V} {M : Writes K V}
      (hm : nodes.Represents M) (plain : ∀ e ∈ nodes.enumerateWrites, e.1.length = 1) :
      Represents (.update path nodes)
        (.enqueue (FCompoundWrite.writesAt path (nodes.writesOf M)))
  | ackWrite : Represents .ackWrite .dequeue
  | purgeOutstandingWrites : Represents .purgeOutstandingWrites .clear

namespace FRepo

/-- The pending writes are those of the queue, merged into their layer, and their ids are below
the counter. -/
structure Represents (repo : FRepo K V) (queue : List (List (List K × Json K V))) : Prop where
  visibleWrites : repo.pendingWriteTree.visibleWrites.Represents (Writes.layer queue.flatten)
  allWrites : List.Forall₂ FWriteRecord.Represents repo.pendingWriteTree.allWrites queue
  writeIds : ∀ record ∈ repo.pendingWriteTree.allWrites, record.writeId < repo.writeIdCounter
  lastWriteId : repo.pendingWriteTree.lastWriteId < repo.writeIdCounter
  counter : 0 ≤ repo.writeIdCounter

variable {repo : FRepo K V} {queue : List (List (List K × Json K V))}

/-- At the start nothing is pending. -/
theorem represents_init : (init : FRepo K V).Represents [] where
  visibleWrites := FCompoundWrite.represents_emptyWrite
  allWrites := .nil
  writeIds := by simp [init, FWriteTree.init]
  lastWriteId := by simp [init, FWriteTree.init]
  counter := le_rfl

/-- A new write joins the queue. -/
theorem Represents.enqueue (h : repo.Represents queue) {visibleWrites : FCompoundWrite K V}
    {record : FWriteRecord K V} {ws : List (List K × Json K V)}
    (hvisible : visibleWrites.Represents
      (ws.foldl (fun W e => W.add e.1 e.2) (Writes.layer queue.flatten)))
    (hrecord : record.Represents ws) (hid : record.writeId = repo.writeIdCounter) :
    Represents ⟨⟨visibleWrites, repo.pendingWriteTree.allWrites ++ [record], record.writeId⟩,
      repo.writeIdCounter + 1⟩ (queue ++ [ws]) where
  visibleWrites := by
    rw [List.flatten_append, List.flatten_singleton, Writes.layer_append]
    exact hvisible
  allWrites := List.rel_append h.allWrites (.cons hrecord .nil)
  writeIds r hr := by
    show r.writeId < repo.writeIdCounter + 1
    rcases List.mem_append.mp hr with hr | hr
    · have := h.writeIds r hr
      omega
    · rw [List.mem_singleton.mp hr, hid]
      omega
  lastWriteId := by
    show record.writeId < repo.writeIdCounter + 1
    omega
  counter := by
    have := h.counter
    show 0 ≤ repo.writeIdCounter + 1
    omega

/-- Each operation does to the repository what it does to the queue. -/
theorem Represents.perform (h : repo.Represents queue) {op : WriteOp K V} {qop : QueueOp K V}
    (hop : op.Represents qop) :
    ∃ repo', repo.perform op = .ok repo' ∧ repo'.Represents (qop.perform queue) := by
  have hid : ¬ repo.writeIdCounter ≤ repo.pendingWriteTree.lastWriteId := not_le.mpr h.lastWriteId
  cases hop with
  | @set path node v hv =>
    obtain ⟨w', hw', hrep⟩ := h.visibleWrites.addWrite hv path
    refine ⟨_, ?_, h.enqueue hrep (.overwrite repo.writeIdCounter path hv) rfl⟩
    simp only [FRepo.perform, FWriteTree.addOverwriteAtPath, if_neg hid, hw', bind, Except.bind,
      if_true]
  | @update path nodes M hm plain =>
    rw [QueueOp.perform, FCompoundWrite.writesAt, List.isEmpty_map, hm.isEmpty_writesOf,
      FRepo.perform]
    split_ifs with hempty
    · exact ⟨repo, rfl, h⟩
    · obtain ⟨w', hw', hrep⟩ := h.visibleWrites.addCompoundWrite hm path
      refine ⟨_, ?_, h.enqueue hrep (.merge repo.writeIdCounter path hm plain) rfl⟩
      simp only [FWriteTree.addMergeAtPath, if_neg hid, hw', bind, Except.bind]
  | ackWrite =>
    have hall := h.allWrites
    cases hwrites : repo.pendingWriteTree.allWrites with
    | nil =>
      rw [hwrites] at hall
      cases hall
      refine ⟨repo, ?_, h⟩
      rw [FRepo.perform, hwrites]
    | cons record records =>
      rw [hwrites] at hall
      cases hall with
      | @cons _ ws _ queue hrecord hrecords =>
        obtain ⟨t', needToReevaluate, ht', hall', hvisible, hlast⟩ :=
          FWriteTree.represents_removeWriteId hwrites hrecord hrecords h.visibleWrites
        have hids : ∀ r ∈ records, r.writeId < repo.writeIdCounter := fun r hr =>
          h.writeIds r (hwrites ▸ List.mem_cons_of_mem _ hr)
        refine ⟨{ repo with pendingWriteTree := t' }, ?_, hvisible, ?_, ?_, ?_, h.counter⟩
        · simp only [FRepo.perform, hwrites, ht', bind, Except.bind]
        · rw [hall']
          exact hrecords
        · rw [hall']
          exact hids
        · show t'.lastWriteId < repo.writeIdCounter
          rcases hlast with hlast | hlast
          · rw [hlast]
            exact h.lastWriteId
          · rw [hlast]
            cases hgetLast : records.getLast? with
            | none =>
              have := h.counter
              show -1 < repo.writeIdCounter
              omega
            | some r => exact hids r (List.mem_of_getLast? hgetLast)
  | purgeOutstandingWrites =>
    exact ⟨_, rfl, FCompoundWrite.represents_emptyWrite, .nil, by simp [FWriteTree.removeAllWrites],
      h.lastWriteId, h.counter⟩

/-- Operations one after the other. -/
theorem represents_run {ops : List (WriteOp K V)} {qops : List (QueueOp K V)}
    (hops : List.Forall₂ WriteOp.Represents ops qops) :
    ∃ repo, run ops = .ok repo ∧ repo.Represents (qops.foldl QueueOp.perform []) := by
  have hgen : ∀ (repo : FRepo K V) (queue : List (List (List K × Json K V))),
      repo.Represents queue → ∃ repo', ops.foldlM FRepo.perform repo = .ok repo' ∧
        repo'.Represents (qops.foldl QueueOp.perform queue) := by
    induction hops with
    | nil => exact fun repo queue h => ⟨repo, rfl, h⟩
    | @cons op qop ops qops hop hops ih =>
      intro repo queue h
      obtain ⟨repo₁, hrepo₁, h₁⟩ := h.perform hop
      obtain ⟨repo', hrepo', h'⟩ := ih repo₁ _ h₁
      refine ⟨repo', ?_, h'⟩
      rw [List.foldlM_cons, hrepo₁]
      exact hrepo'
  exact hgen init [] represents_init

/-! ## What a listener sees -/

/-- The event cache at a path is the server's data with the pending writes made in order. -/
theorem Represents.calculateCompleteEventCacheAtPath (h : repo.Represents queue)
    {j : Json K V} (hopen : j.OpenAt queue.flatten) (treePath : List K) {serverCache : FNode K V}
    (hserver : serverCache.Represents (j.get treePath).root) :
    ∃ node, repo.pendingWriteTree.calculateCompleteEventCacheAtPath treePath (some serverCache)
        none false = .ok (some node) ∧
      node.Represents ((j.setAll queue.flatten).get treePath).root := by
  have hw := h.visibleWrites
  have heffect : j.setAll (repo.pendingWriteTree.visibleWrites.writesOf
      (Writes.layer queue.flatten)) = j.setAll queue.flatten := Writes.setAll_layer hw.lists hopen
  rw [← heffect]
  unfold FWriteTree.calculateCompleteEventCacheAtPath
  simp only [Option.isNone_none, Bool.not_false, Bool.and_self, if_true]
  rcases hw.completeNodeAtPath treePath with ⟨r, s, v, node, rfl, hr, hcomplete, hnode⟩ |
    ⟨hnone, hcomplete⟩
  · -- a pending write is at the path or above it
    refine ⟨node, ?_, ?_⟩
    · rw [hcomplete]
      rfl
    · rw [Writes.get_setAll_of_covered hw.layered hw.lists hr]
      exact hnode
  · obtain ⟨subMerge, hsub, hrep⟩ := hw.childCompoundWriteAtPath hnone
    rw [Writes.get_setAll_of_not_covered hw.layered hw.lists hrep.lists
      (fun q hq _ => hnone q hq) (Writes.openAt_of_layer hw.lists hopen)]
    simp only [hcomplete, hsub, bind, Except.bind]
    by_cases hempty : subMerge.isEmpty = true
    · rw [if_pos hempty]
      refine ⟨serverCache, rfl, ?_⟩
      rw [← hrep.isEmpty_writesOf, List.isEmpty_iff] at hempty
      rw [hempty]
      exact hserver
    · obtain ⟨node, happly, hnode⟩ := hrep.applyToNode hserver
      refine ⟨node, ?_, hnode⟩
      simp only [hempty, Bool.false_eq_true, if_false, Option.isNone_some, if_true,
        Option.getD_some, happly]
      rfl

/-- Whatever the user writes and the server acknowledges, no operation raises an exception, and
what is shown of any data of the server, at any path, is that data with the writes made on it that
are still unacknowledged, in the order in which they were made. -/
theorem event_cache_refines_queue [DecidableEq V] (ops : List (WriteOp K V))
    (qops : List (QueueOp K V)) (hops : List.Forall₂ WriteOp.Represents ops qops) :
    ∃ repo, run ops = .ok repo ∧
      ∀ (j : Json K V) (treePath : List K) (serverCache other : FNode K V),
        j.OpenAt (qops.foldl QueueOp.perform []).flatten →
        serverCache.Represents (j.get treePath).root →
        other.Represents ((j.setAll (qops.foldl QueueOp.perform []).flatten).get treePath).root →
        ∃ node, repo.pendingWriteTree.calculateCompleteEventCacheAtPath treePath
            (some serverCache) none false = .ok (some node) ∧ node.isEqual other = true := by
  obtain ⟨repo, hrepo, h⟩ := represents_run hops
  refine ⟨repo, hrepo, fun j treePath serverCache other hopen hserver hother => ?_⟩
  obtain ⟨node, hnode, hrep⟩ := h.calculateCompleteEventCacheAtPath hopen treePath hserver
  exact ⟨node, hnode, ((hrep.isEqual_iff hother).1).mpr rfl⟩

/-- Two writes, the first of them acknowledged. -/
def sampleQueueOps : List (QueueOp ℕ String) :=
  [.enqueue [([1], .leaf "a")], .enqueue [([1, 2], .leaf "b")], .dequeue]

/-- Two writes, the first of which is acknowledged. -/
theorem event_cache_refines_queue_sample :
    ∃ repo, run [.set [1] (.leaf "a"), .set [1, 2] (.leaf "b"), .ackWrite] = .ok repo ∧
      ∀ (j : Json ℕ String) (treePath : List ℕ) (serverCache other : FNode ℕ String),
        j.OpenAt (sampleQueueOps.foldl QueueOp.perform []).flatten →
        serverCache.Represents (j.get treePath).root →
        other.Represents
          ((j.setAll (sampleQueueOps.foldl QueueOp.perform []).flatten).get treePath).root →
        ∃ node, repo.pendingWriteTree.calculateCompleteEventCacheAtPath treePath
            (some serverCache) none false = .ok (some node) ∧ node.isEqual other = true :=
  event_cache_refines_queue _ sampleQueueOps
    (.cons (.set [1] (.leaf "a")) (.cons (.set [1, 2] (.leaf "b")) (.cons .ackWrite .nil)))

end FRepo

end TifaSoccer
