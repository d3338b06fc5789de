import Remem.Attr.CacheRuns
import Remem.Attr.Exactness
import Remem.Base.Machine

/-!
# The row cache is snapshot-correct

A write is in its window from the mark to the bump of the generation. Outside the
window of every write to it, a row reads the same in the store, in every cached
entry of the current generation and in the snapshot of every reader that holds the
current generation; inside a window the row is marked or the cache is off.
-/

namespace Remem.Attr

open Base Keys Storage List

@[simp]
theorem cacheKey_tenant (subject : Subject) : (cacheKey subject).tenant = subject.tenant := by
  unfold cacheKey
  split <;> rfl

@[simp]
theorem cacheKey_cacheKey (subject : Subject) : cacheKey (cacheKey subject) = cacheKey subject := by
  have named : defaultNamespace ≠ [] := by decide
  by_cases empty : subject.namespaceName = [] <;> simp [cacheKey, empty, named]

namespace RowCache

def marksOn (cache : RowCache) (key : Subject) : List UInt64 := (cache.shard key).staged key

def Holds (cache : RowCache) (entry : CacheEntry) : Prop :=
  ∃ index, entry ∈ (cache.shards index).order

variable {cache : RowCache} {key other : Subject} {change : Shard → Shard}

theorem shards_withShard (index : Fin 16) : (cache.withShard key change).shards index =
      if index = shardOf key then change (cache.shard key) else cache.shards index := by
  change Function.update _ _ _ index = _
  rw [Function.update_apply]

theorem shard_of_shardOf (same : shardOf other = shardOf key) :
    cache.shard other = cache.shard key := by
  rw [shard, shard, same]

theorem marksOn_withShard_of_staged (staged : ∀ shard, (change shard).staged = shard.staged) :
    (cache.withShard key change).marksOn other = cache.marksOn other := by
  rw [marksOn, shard, shards_withShard]
  split
  · next same => rw [staged, marksOn, shard_of_shardOf same]
  · rfl

theorem marksOn_withShard {marks : List UInt64} (staged : (change (cache.shard key)).staged =
      Function.update (cache.shard key).staged key marks) :
    (cache.withShard key change).marksOn other =
      if other = key then marks else cache.marksOn other := by
  rw [marksOn, shard, shards_withShard]
  split
  · next same => rw [staged, Function.update_apply, marksOn, shard_of_shardOf same]
  next apart =>
  have differ : other ≠ key := by
    rintro rfl
    exact apart rfl
  rw [if_neg differ]
  rfl

variable {entry : CacheEntry}

theorem holds_withShard (held : (cache.withShard key change).Holds entry) :
    entry ∈ (change (cache.shard key)).order ∨ cache.Holds entry := by
  obtain ⟨index, membership⟩ := held
  rw [shards_withShard] at membership
  split at membership
  · exact .inl membership
  · exact .inr ⟨index, membership⟩

theorem holds_of_withShard (fewer : ∀ shard, (change shard).order ⊆ shard.order)
    (held : (cache.withShard key change).Holds entry) : cache.Holds entry := by
  rcases holds_withShard held with changed | same
  · exact ⟨shardOf key, fewer _ changed⟩
  · exact same

theorem holds_of_mark {subject : Subject} {seq : UInt64} {record : Bool}
    (held : (cache.mark subject seq record).Holds entry) : cache.Holds entry := by
  cases record with
  | false => exact held
  | true =>
    rw [mark, if_pos rfl] at held
    exact holds_of_withShard (fun _ => eraseP_subset) held

theorem holds_of_release {subject : Subject} {seq : UInt64}
    (held : (cache.release subject seq).Holds entry) : cache.Holds entry := by
  unfold release at held
  exact holds_of_withShard (fun _ => eraseP_subset) held

theorem holds_of_mem_shard (membership : entry ∈ (cache.shard key).order) :
    cache.Holds entry := ⟨shardOf key, membership⟩

end RowCache

theorem count_le_count_withoutMark (marks : List UInt64) (seq other : UInt64) : marks.count other ≤
      (Shard.withoutMark marks seq).count other + if seq = other then 1 else 0 := by
  unfold Shard.withoutMark
  cases found : marks.idxOf? seq with
  | none => exact Nat.le_add_right _ _
  | some index =>
    obtain ⟨inside, isSeq, _⟩ := idxOf?_eq_some_iff.mp found
    cases last : marks.getLast? with
    | none => exact Nat.le_add_right _ _
    | some final =>
      obtain ⟨front, rfl⟩ := getLast?_eq_some_iff.mp last
      simp only [count_append, count_singleton]
      rcases Nat.lt_or_ge index front.length with early | late
      · rw [getElem_append_left early] at isSeq
        rw [set_append_left _ _ early, dropLast_concat, count_set early, isSeq]
        simp only [beq_iff_eq]
        omega
      have atEnd : index = front.length := by
        rw [length_append, length_singleton] at inside
        omega
      subst atEnd
      rw [getElem_append_right le_rfl] at isSeq
      have isFinal : final = seq := by simpa using isSeq
      rw [set_append_right _ _ le_rfl]
      simp [isFinal]

def InWindow (writes : List Write) (key : Subject) : Prop :=
  ∃ write ∈ writes, cacheKey write.subject = key ∧ write.phase.isMarked = true

namespace Phase

def counted : Phase → Bool
  | entered _ | marked _ | bumped _ | released => true
  | drawn | left => false

def holdsMark : Phase → Bool
  | marked record | bumped record => record
  | _ => false

/-- The gate refused the write a mark, and its window is not over. -/
def refused : Phase → Bool
  | entered record | marked record | bumped record => !record
  | _ => false

end Phase

def Write.marks (key : Subject) (seq : UInt64) (write : Write) : Bool :=
  decide (cacheKey write.subject = key) && decide (write.seq = seq) && write.phase.holdsMark

/-- Every write in its window has its mark on the row, or the cache is off until the
gate has counted every write out again. -/
structure Guarded (cache : RowCache) (writes : List Write) : Prop where
  clearing : cache.staging.clearing ≠ [] → cache.staging.disabled = true
  outstanding : cache.staging.outstanding = writes.countP fun write => write.phase.counted
  unlatched : cache.staging.latched = false
  refused : ∀ write ∈ writes, write.phase.refused = true → cache.staging.disabled = true
  marks : cache.staging.disabled = true ∨ ∀ key seq,
    writes.countP (Write.marks key seq) ≤ (cache.marksOn key).count seq

theorem Guarded.refuses {cache : RowCache} {writes : List Write}
    (guarded : Guarded cache writes) {key : Subject} (window : InWindow writes key)
    (gen : UInt64) : cache.refuses key gen = true := by
  obtain ⟨write, listed, rfl, marked⟩ := window
  unfold RowCache.refuses
  rcases guarded.marks with off | marks
  · simp [off]
  cases phase : write.phase with
  | marked record =>
    cases record with
    | false =>
      have off := guarded.refused write listed (by simp [phase, Phase.refused])
      simp [off]
    | true =>
      have held : 0 < writes.countP (Write.marks (cacheKey write.subject) write.seq) :=
        countP_pos_iff.mpr ⟨write, listed, by simp [Write.marks, phase, Phase.holdsMark]⟩
      have present := count_pos_iff.mp (held.trans_le (marks (cacheKey write.subject) write.seq))
      have some : 0 < (cache.marksOn (cacheKey write.subject)).length :=
        length_pos_of_mem present
      unfold RowCache.marksOn at some
      simp [some]
  | _ => simp [phase, Phase.isMarked] at marked

theorem countP_set_add {writes : List Write} {index : Nat} {write : Write}
    (found : writes[index]? = some write) (after : Write) (counts : Write → Bool) :
    (writes.set index after).countP counts + (if counts write then 1 else 0) =
      writes.countP counts + if counts after then 1 else 0 := by
  obtain ⟨inside, rfl⟩ := List.getElem?_eq_some_iff.mp found
  rw [countP_set inside]
  by_cases counted : counts writes[index] = true
  · have positive : 0 < writes.countP counts :=
      countP_pos_iff.mpr ⟨_, getElem_mem inside, counted⟩
    simp only [counted, if_true]
    omega
  · simp only [counted, Bool.false_eq_true, if_false]
    omega

section Guard

variable {cache after : RowCache} {writes : List Write} {index : Nat} {write : Write}

theorem Guarded.set (guarded : Guarded cache writes) (found : writes[index]? = some write)
    {phase : Phase}
    (clearing : after.staging.clearing ≠ [] → after.staging.disabled = true)
    (outstanding : after.staging.outstanding + (if write.phase.counted then 1 else 0) =
      cache.staging.outstanding + if phase.counted then 1 else 0)
    (latched : after.staging.latched = cache.staging.latched)
    (stays : cache.staging.disabled = true → after.staging.disabled = true)
    (refused : phase.refused = true → after.staging.disabled = true)
    (marks : after.staging.disabled = true ∨ ∀ key seq, (cache.marksOn key).count seq +
          (if { write with phase }.marks key seq then 1 else 0) ≤
        (after.marksOn key).count seq + if write.marks key seq then 1 else 0) :
    Guarded after (writes.set index { write with phase }) where
  clearing := clearing
  outstanding := by
    have counts := countP_set_add found { write with phase } fun write => write.phase.counted
    have before := guarded.outstanding
    simp only at counts
    split_ifs at counts outstanding <;> omega
  unlatched := latched.trans guarded.unlatched
  refused other listed isRefused := by
    rcases mem_or_eq_of_mem_set listed with earlier | rfl
    · exact stays (guarded.refused other earlier isRefused)
    · exact refused isRefused
  marks := by
    rcases guarded.marks with off | held
    · exact .inl (stays off)
    refine marks.imp_right fun moved key seq => ?_
    have counts := countP_set_add found { write with phase } (Write.marks key seq)
    have before := held key seq
    have step := moved key seq
    omega

theorem StagingGate.enter_spec (gate : StagingGate) :
    gate.enter.2.outstanding = gate.outstanding + 1 ∧ gate.enter.2.latched = gate.latched ∧
      (gate.disabled = true → gate.enter.2.disabled = true) ∧
      (gate.enter.1 = false → gate.enter.2.disabled = true) ∧
      (gate.enter.2.clearing ≠ [] →
        gate.enter.2.clearing = gate.clearing ∨ gate.enter.2.disabled = true) := by
  unfold enter
  by_cases off : gate.disabled = true
  · simp [off]
  · by_cases full : gate.outstanding + 1 > maxStagedRows <;> simp [off, full]

theorem Guarded.enter (guarded : Guarded cache writes) (found : writes[index]? = some write)
    (phase : write.phase = .drawn) :
    Guarded cache.enter.2 (writes.set index { write with phase := .entered cache.enter.1 }) := by
  obtain ⟨counted, latched, stays, refuses, clears⟩ := cache.staging.enter_spec
  apply guarded.set found
  · intro clearing
    rcases clears clearing with same | off
    · exact stays (guarded.clearing (same ▸ clearing))
    · exact off
  · change cache.staging.enter.2.outstanding + _ = _
    rw [counted, phase]
    simp [Phase.counted]
  · exact latched
  · exact stays
  · intro refused
    apply refuses
    change cache.enter.1 = false
    simpa [Phase.refused] using refused
  · right
    intro key seq
    have same : cache.enter.2.marksOn key = cache.marksOn key := rfl
    rw [same]
    simp [Write.marks, Phase.holdsMark, phase]

variable {record : Bool}

theorem Guarded.mark (guarded : Guarded cache writes) (found : writes[index]? = some write)
    (phase : write.phase = .entered record) :
    Guarded (cache.mark write.subject write.seq record)
      (writes.set index { write with phase := .marked record }) := by
  have gate : (cache.mark write.subject write.seq record).staging = cache.staging := by
    cases record <;> rfl
  apply guarded.set found
  · rw [gate]
    exact guarded.clearing
  · rw [gate, phase]
    rfl
  · rw [gate]
  · rw [gate]
    exact id
  · intro refused
    rw [gate]
    apply guarded.refused write (mem_of_getElem? found)
    rw [phase]
    exact refused
  · right
    intro key seq
    cases record with
    | false => simp [Write.marks, Phase.holdsMark, RowCache.mark]
    | true =>
      have marked : (cache.mark write.subject write.seq true).marksOn key =
          if key = cacheKey write.subject then
            cache.marksOn (cacheKey write.subject) ++ [write.seq]
          else cache.marksOn key := by
        rw [RowCache.mark, if_pos rfl]
        exact RowCache.marksOn_withShard rfl
      rw [marked]
      by_cases own : key = cacheKey write.subject
      · subst own
        by_cases same : write.seq = seq <;>
          simp [Write.marks, Phase.holdsMark, same]
      · simp [Write.marks, own, Ne.symm own]

theorem Guarded.bump (guarded : Guarded cache writes) (found : writes[index]? = some write)
    (phase : write.phase = .marked record) (tenant : TenantId) :
    Guarded (cache.bump tenant) (writes.set index { write with phase := .bumped record }) := by
  apply guarded.set found
  · exact guarded.clearing
  · rw [phase]
    rfl
  · rfl
  · exact id
  · intro refused
    apply guarded.refused write (mem_of_getElem? found)
    rw [phase]
    exact refused
  · right
    intro key seq
    have same : (cache.bump tenant).marksOn key = cache.marksOn key := rfl
    rw [same]
    simp [Write.marks, Phase.holdsMark, phase]

theorem Guarded.release (guarded : Guarded cache writes) (found : writes[index]? = some write)
    (phase : write.phase = .bumped record) :
    Guarded (cache.release write.subject write.seq)
      (writes.set index { write with phase := .released }) := by
  apply guarded.set found
  · exact guarded.clearing
  · rw [phase]
    rfl
  · rfl
  · exact id
  · simp [Phase.refused]
  · cases record with
    | false =>
      left
      exact guarded.refused write (mem_of_getElem? found) (by simp [phase, Phase.refused])
    | true =>
      right
      intro key seq
      have released : (cache.release write.subject write.seq).marksOn key =
          if key = cacheKey write.subject then
            Shard.withoutMark (cache.marksOn (cacheKey write.subject)) write.seq
          else cache.marksOn key := by
        unfold RowCache.release
        exact RowCache.marksOn_withShard rfl
      rw [released]
      by_cases own : key = cacheKey write.subject
      · subst own
        have taken := count_le_count_withoutMark
          (cache.marksOn (cacheKey write.subject)) write.seq seq
        simpa [Write.marks, Phase.holdsMark, phase] using taken
      · simp [Write.marks, own, Ne.symm own]

theorem Guarded.leave (guarded : Guarded cache writes) (found : writes[index]? = some write)
    (phase : write.phase = .released) (unlocked : cache.staging.clearing = []) :
    Guarded cache.leave (writes.set index { write with phase := .left }) := by
  have counts := countP_set_add found { write with phase := .left } fun write => write.phase.counted
  have before := guarded.outstanding
  have latched := guarded.unlatched
  have wasCounted : write.phase.counted = true := by rw [phase]; rfl
  have noLonger : Phase.left.counted = false := rfl
  simp only [wasCounted, noLonger, if_true, Bool.false_eq_true, if_false] at counts
  have remaining : cache.staging.outstanding - 1 =
      ((writes.set index { write with phase := .left }).countP
        fun write => write.phase.counted : Nat) := by
    omega
  have noUnderflow : ¬ cache.staging.outstanding - 1 < 0 := by omega
  by_cases recovers : cache.staging.outstanding - 1 = 0 ∧ cache.staging.disabled = true
  · have gate : cache.leave.staging = { cache.staging with outstanding := 0, disabled := false } := by
      simp [RowCache.leave, StagingGate.leave, recovers, latched]
    have none : ∀ other ∈ writes.set index { write with phase := .left },
        other.phase.counted = false := by
      have zero : (writes.set index { write with phase := .left }).countP
          (fun write => write.phase.counted) = 0 := by omega
      simpa [countP_eq_zero] using zero
    refine ⟨?_, ?_, ?_, ?_, .inr ?_⟩
    · rw [gate]
      exact fun clearing => absurd unlocked clearing
    · rw [gate, ← remaining]
      exact recovers.1.symm
    · rw [gate]
      exact latched
    · intro other listed refused
      have idle := none other listed
      cases held : other.phase <;> simp_all [Phase.counted, Phase.refused]
    · intro key seq
      have noMarks : (writes.set index { write with phase := .left }).countP
          (Write.marks key seq) = 0 := by
        rw [countP_eq_zero]
        intro other listed marks
        have idle := none other listed
        cases held : other.phase <;>
          simp_all [Phase.counted, Phase.holdsMark, Write.marks]
      omega
  · have gate : cache.leave.staging =
        { cache.staging with outstanding := cache.staging.outstanding - 1 } := by
      simp only [RowCache.leave, StagingGate.leave, if_neg noUnderflow, latched, Bool.false_or]
      rw [if_pos]
      by_cases off : cache.staging.disabled = true
      · have positive : cache.staging.outstanding - 1 > 0 := by
          have more : cache.staging.outstanding - 1 ≠ 0 := fun zero => recovers ⟨zero, off⟩
          omega
        rw [decide_eq_true positive]
        rfl
      · simp [off]
    apply guarded.set found
    · rw [gate]
      exact guarded.clearing
    · rw [gate, phase]
      simp [Phase.counted]
    · rw [gate]
    · rw [gate]
      exact id
    · simp [Phase.refused]
    · right
      intro key seq
      have same : cache.leave.marksOn key = cache.marksOn key := rfl
      rw [same]
      simp [Write.marks, Phase.holdsMark]

theorem Guarded.clearNext (guarded : Guarded cache writes) : Guarded cache.clearNext writes := by
  unfold RowCache.clearNext
  cases clearing : cache.staging.clearing with
  | nil => exact guarded
  | cons index rest =>
    have off : cache.staging.disabled = true := guarded.clearing (by simp [clearing])
    exact ⟨fun _ => off, guarded.outstanding, guarded.unlatched, fun _ _ _ => off, .inl off⟩

theorem Guarded.drawn (guarded : Guarded cache writes) {write : Write}
    (phase : write.phase = .drawn) : Guarded cache.drawSeq.2 (writes ++ [write]) where
  clearing := guarded.clearing
  outstanding := by
    have idle : write.phase.counted = false := by rw [phase]; rfl
    rw [countP_append, countP_singleton, idle]
    exact guarded.outstanding
  unlatched := guarded.unlatched
  refused other listed isRefused := by
    rcases mem_append.mp listed with earlier | new
    · exact guarded.refused other earlier isRefused
    · rw [mem_singleton.mp new, phase] at isRefused
      cases isRefused
  marks := by
    refine guarded.marks.imp_right fun held key seq => ?_
    have unmarked : write.marks key seq = false := by
      simp [Write.marks, phase, Phase.holdsMark]
    rw [countP_append, countP_singleton, unmarked]
    exact held key seq

theorem Guarded.withShard (guarded : Guarded cache writes) (key : Subject)
    {change : Shard → Shard} (staged : ∀ shard, (change shard).staged = shard.staged) :
    Guarded (cache.withShard key change) writes where
  clearing := guarded.clearing
  outstanding := guarded.outstanding
  unlatched := guarded.unlatched
  refused := guarded.refused
  marks := by
    refine guarded.marks.imp_right fun held other seq => ?_
    rw [RowCache.marksOn_withShard_of_staged staged]
    exact held other seq

end Guard

section Views

variable {table : Slots} {finished : Nat} {world after : World}

/-- Entries and readers of the current generation see the store's row, except where a
write is in its window. No generation has come further than the writes that finished. -/
structure Views (table : Slots) (finished : Nat) (world : World) : Prop where
  counted : ∀ tenant, (world.cache.gens tenant).toNat ≤ finished
  entryKey : ∀ entry, world.cache.Holds entry → cacheKey entry.key = entry.key
  entryGen : ∀ entry, world.cache.Holds entry → entry.gen ≤ world.cache.gens entry.key.tenant
  entries : ∀ entry, world.cache.Holds entry → entry.gen = world.cache.gens entry.key.tenant →
      InWindow world.writes entry.key ∨ decodeRowFrom table world.store entry.key = some entry.row
  readerGen : ∀ reader ∈ world.readers, reader.gen ≤ world.cache.gens reader.tenant
  readers : ∀ reader ∈ world.readers, ∀ snapshot, reader.snapshot = some snapshot →
    reader.gen = world.cache.gens reader.tenant → ∀ subject, subject.tenant = reader.tenant →
      cacheKey subject = subject → InWindow world.writes subject ∨
        world.store.get (rowKey subject) = snapshot.get (rowKey subject)

theorem Views.mono (views : Views table finished world) (store : after.store = world.store)
    (gens : after.cache.gens = world.cache.gens) (readers : after.readers = world.readers)
    (holds : ∀ entry, after.cache.Holds entry → world.cache.Holds entry)
    (window : ∀ key, InWindow world.writes key → InWindow after.writes key) :
    Views table finished after where
  counted := by
    rw [gens]
    exact views.counted
  entryKey entry held := views.entryKey entry (holds entry held)
  entryGen entry held := by
    rw [gens]
    exact views.entryGen entry (holds entry held)
  entries entry held current := by
    rw [gens] at current
    rw [store]
    exact (views.entries entry (holds entry held) current).imp_left (window _)
  readerGen := by
    rw [readers, gens]
    exact views.readerGen
  readers := by
    rw [readers, gens, store]
    intro reader listed snapshot taken current subject own normal
    exact (views.readers reader listed snapshot taken current subject own normal).imp_left
      (window _)

variable {index : Nat} {key : Subject}

theorem InWindow.set {writes : List Write} {write next : Write}
    (found : writes[index]? = some write)
    (outside : ¬ (cacheKey write.subject = key ∧ write.phase.isMarked = true))
    (window : InWindow writes key) : InWindow (writes.set index next) key := by
  obtain ⟨other, listed, own, marked⟩ := window
  obtain ⟨position, here⟩ := mem_iff_getElem?.mp listed
  have apart : index ≠ position := by
    rintro rfl
    rw [found, Option.some.injEq] at here
    subst here
    exact outside ⟨own, marked⟩
  refine ⟨other, mem_iff_getElem?.mpr ⟨position, ?_⟩, own, marked⟩
  rw [getElem?_set_ne apart, here]

theorem Views.bump (views : Views table finished world) (room : finished + 1 < UInt64.size)
    {write next : Write} (found : world.writes[index]? = some write) :
    Views table (finished + 1) { world with
      cache := world.cache.bump write.subject.tenant
      writes := world.writes.set index next } := by
  have counts : ∀ tenant, (world.cache.gens tenant + 1).toNat =
      (world.cache.gens tenant).toNat + 1 := by
    intro tenant
    have counted := views.counted tenant
    exact toNat_succ (by omega)
  have grows : ∀ tenant, world.cache.gens tenant ≤
      (world.cache.bump write.subject.tenant).gens tenant := by
    intro tenant
    simp only [RowCache.bump, Function.update_apply]
    split
    · next same =>
      rw [same, UInt64.le_iff_toNat_le, counts]
      exact Nat.le_succ _
    · exact UInt64.le_refl _
  -- whoever still holds the current generation is of another tenant
  have elsewhere : ∀ gen tenant, gen ≤ world.cache.gens tenant →
      gen = (world.cache.bump write.subject.tenant).gens tenant →
      tenant ≠ write.subject.tenant ∧ gen = world.cache.gens tenant := by
    intro gen tenant bound current
    simp only [RowCache.bump, Function.update_apply] at current
    split at current
    · next same =>
      rw [current, same, UInt64.le_iff_toNat_le, counts] at bound
      omega
    · next apart => exact ⟨apart, current⟩
  have window : ∀ key : Subject, key.tenant ≠ write.subject.tenant →
      InWindow world.writes key → InWindow (world.writes.set index next) key := by
    intro key apart
    apply InWindow.set found
    rintro ⟨rfl, _⟩
    exact apart (cacheKey_tenant _)
  constructor
  · intro tenant
    have counted := views.counted tenant
    simp only [RowCache.bump, Function.update_apply]
    split
    · next same => rw [← same, counts]; omega
    · exact Nat.le_succ_of_le counted
  · exact views.entryKey
  · exact fun entry held => UInt64.le_trans (views.entryGen entry held) (grows _)
  · intro entry held current
    obtain ⟨apart, was⟩ := elsewhere _ _ (views.entryGen entry held) current
    exact (views.entries entry held was).imp_left (window _ apart)
  · exact fun reader listed => UInt64.le_trans (views.readerGen reader listed) (grows _)
  · intro reader listed snapshot taken current subject own normal
    obtain ⟨apart, was⟩ := elsewhere _ _ (views.readerGen reader listed) current
    exact (views.readers reader listed snapshot taken was subject own normal).imp_left
      (window _ (own ▸ apart))

theorem get_foldl_apply_of_ne {ops : List Op} {key : Bytes} (untouched : ∀ op ∈ ops, op.key ≠ key)
    (store : Store) : (ops.foldl Op.apply store).get key = store.get key :=
  @Batch.get_effect_of_not_staged ⟨ops, [], []⟩ key untouched store

theorem Views.apply (views : Views table finished world) {transaction : Nat}
    (ready : world.ready transaction = true) :
    Views table finished { world with
      store := ((world.stagedBy transaction).map Write.op).foldl Op.apply world.store } := by
  have unchanged : ∀ subject, cacheKey subject = subject → ¬ InWindow world.writes subject →
      (((world.stagedBy transaction).map Write.op).foldl Op.apply world.store).get
        (rowKey subject) = world.store.get (rowKey subject) := by
    intro subject normal outside
    apply get_foldl_apply_of_ne
    intro op listed same
    obtain ⟨write, staged, rfl⟩ := mem_map.mp listed
    have marked := all_eq_true.mp (Bool.and_eq_true_iff.mp ready).2 write staged
    have own : rowKey write.subject = rowKey subject := by
      rw [← same, Write.op]
      split <;> rfl
    refine outside ⟨write, (mem_filter.mp staged).1, ?_, marked⟩
    rw [rowKey_inj own, normal]
  constructor
  · exact views.counted
  · exact views.entryKey
  · exact views.entryGen
  · intro entry held current
    by_cases window : InWindow world.writes entry.key
    · exact .inl window
    right
    rw [decodeRowFrom, unchanged _ (views.entryKey entry held) window]
    exact (views.entries entry held current).resolve_left window
  · exact views.readerGen
  · intro reader listed snapshot taken current subject own normal
    by_cases window : InWindow world.writes subject
    · exact .inl window
    right
    rw [unchanged subject normal window]
    exact (views.readers reader listed snapshot taken current subject own normal).resolve_left
      window

/-- What a reader has returned is what its snapshot holds. -/
structure Reader.Correct (table : Slots) (reader : Reader) : Prop where
  answered : ∀ answer ∈ reader.answers, ∃ snapshot, reader.snapshot = some snapshot ∧
    answer.2 = decodeRowFrom table snapshot answer.1
  missed : ∀ subject, reader.pending = some subject →
    subject.tenant = reader.tenant ∧ cacheKey subject = subject

variable {reader : Reader}

theorem Views.current (views : Views table finished world)
    (guarded : Guarded world.cache world.writes) (listed : reader ∈ world.readers) {snapshot : Store} (taken : reader.snapshot = some snapshot)
    {subject : Subject} (own : subject.tenant = reader.tenant) (normal : cacheKey subject = subject)
    (serves : world.cache.refuses subject reader.gen = false) :
    reader.gen = world.cache.gens subject.tenant ∧ ¬ InWindow world.writes subject ∧
      decodeRowFrom table world.store subject = decodeRowFrom table snapshot subject := by
  have outside : ¬ InWindow world.writes subject := by
    intro window
    rw [guarded.refuses window] at serves
    cases serves
  have gens : reader.gen = world.cache.gens subject.tenant := by
    simp only [RowCache.refuses, Bool.or_eq_false_iff, decide_eq_false_iff_not, ne_eq,
      not_not] at serves
    exact serves.2.symm
  have rows := (views.readers reader listed snapshot taken (own ▸ gens) subject own
    normal).resolve_left outside
  refine ⟨gens, outside, ?_⟩
  rw [decodeRowFrom, decodeRowFrom, rows]

theorem Views.opened (views : Views table finished world) (tenant : TenantId) :
    Views table finished { world with
      readers := world.readers ++ [{ tenant, gen := world.cache.generation tenant }] } where
  counted := views.counted
  entryKey := views.entryKey
  entryGen := views.entryGen
  entries := views.entries
  readerGen reader listed := by
    rcases mem_append.mp listed with earlier | new
    · exact views.readerGen reader earlier
    · rw [mem_singleton.mp new]
      exact UInt64.le_refl _
  readers reader listed snapshot taken := by
    rcases mem_append.mp listed with earlier | new
    · exact views.readers reader earlier snapshot taken
    · rw [mem_singleton.mp new] at taken
      cases taken

theorem Views.withReader (views : Views table finished world) {next : Reader}
    (found : world.readers[index]? = some reader) (tenant : next.tenant = reader.tenant)
    (gen : next.gen = reader.gen)
    (snapshot : next.snapshot = reader.snapshot ∨ next.snapshot = some world.store) :
    Views table finished { world with readers := world.readers.set index next } where
  counted := views.counted
  entryKey := views.entryKey
  entryGen := views.entryGen
  entries := views.entries
  readerGen other listed := by
    rcases mem_or_eq_of_mem_set listed with earlier | rfl
    · exact views.readerGen other earlier
    · rw [gen, tenant]
      exact views.readerGen reader (mem_of_getElem? found)
  readers other listed seen taken current subject own normal := by
    rcases mem_or_eq_of_mem_set listed with earlier | rfl
    · exact views.readers other earlier seen taken current subject own normal
    rcases snapshot with same | fresh
    · rw [gen, tenant] at current
      exact views.readers reader (mem_of_getElem? found) seen (same ▸ taken) current
        subject (own.trans tenant) normal
    · rw [fresh, Option.some.injEq] at taken
      exact .inr (taken ▸ rfl)

theorem Views.withShard (views : Views table finished world) {change : Shard → Shard}
    (entries : ∀ entry ∈ (change (world.cache.shard key)).order, world.cache.Holds entry ∨
      (cacheKey entry.key = entry.key ∧ entry.gen = world.cache.gens entry.key.tenant ∧
      decodeRowFrom table world.store entry.key = some entry.row)) :
    Views table finished { world with cache := world.cache.withShard key change } where
  counted := views.counted
  entryKey entry held := by
    rcases RowCache.holds_withShard held with changed | same
    · exact (entries entry changed).elim (views.entryKey entry) fun new => new.1
    · exact views.entryKey entry same
  entryGen entry held := by
    rcases RowCache.holds_withShard held with changed | same
    · exact (entries entry changed).elim (views.entryGen entry) fun new =>
        new.2.1 ▸ UInt64.le_refl _
    · exact views.entryGen entry same
  entries entry held current := by
    rcases RowCache.holds_withShard held with changed | same
    · exact (entries entry changed).elim (fun was => views.entries entry was current)
        fun new => .inr new.2.2
    · exact views.entries entry same current
  readerGen := views.readerGen
  readers := views.readers

theorem Views.moveToFront (views : Views table finished world) {entry : CacheEntry}
    (held : entry ∈ (world.cache.shard key).order) :
    Views table finished { world with
      cache := world.cache.withShard key fun shard =>
        { shard with order := entry :: shard.order.eraseP fun other => other.key = key } } := by
  apply views.withShard
  intro other listed
  left
  rcases mem_cons.mp listed with rfl | rest
  · exact RowCache.holds_of_mem_shard held
  · exact RowCache.holds_of_mem_shard (mem_of_mem_eraseP rest)

theorem staged_push {entry : CacheEntry} (shard : Shard) :
    (shard.push entry).staged = shard.staged := by
  unfold Shard.push
  split <;> rfl

theorem Views.push (views : Views table finished world) {gen : UInt64} {row : Row}
    (normal : cacheKey key = key) (current : gen = world.cache.gens key.tenant)
    (agrees : decodeRowFrom table world.store key = some row) :
    Views table finished { world with
      cache := world.cache.withShard key fun shard => shard.push ⟨key, gen, row⟩ } := by
  apply views.withShard
  intro other listed
  have origin : other = ⟨key, gen, row⟩ ∨ other ∈ (world.cache.shard key).order := by
    unfold Shard.push at listed
    split at listed
    · exact (mem_cons.mp listed).imp_right mem_of_mem_eraseP
    · exact mem_cons.mp (mem_of_mem_take listed)
  rcases origin with rfl | earlier
  · exact .inr ⟨normal, current, agrees⟩
  · exact .inl (RowCache.holds_of_mem_shard earlier)

theorem Reader.Correct.answer {next : Reader} (correct : reader.Correct table) {snapshot : Store}
    (taken : reader.snapshot = some snapshot) (still : next.snapshot = some snapshot)
    (idle : next.pending = none) {subject : Subject} {row : Option Row}
    (answers : next.answers = (subject, row) :: reader.answers)
    (same : row = decodeRowFrom table snapshot subject) : next.Correct table where
  answered answer listed := by
    rw [answers] at listed
    rw [still]
    rcases mem_cons.mp listed with rfl | earlier
    · exact ⟨snapshot, rfl, same⟩
    · rw [← taken]
      exact correct.answered answer earlier
  missed subject pending := by
    rw [idle] at pending
    cases pending

theorem RowCache.lookupAt_cases (cache : RowCache) (subject : Subject) (gen : UInt64) :
    cache.lookupAt subject gen = (none, cache) ∨
    ∃ entry ∈ (cache.shard (cacheKey subject)).order,
      cache.refuses (cacheKey subject) gen = false ∧ entry.key = cacheKey subject ∧
      entry.gen = gen ∧
      cache.lookupAt subject gen = (some entry.row, cache.withShard (cacheKey subject) fun shard =>
          { shard with
            order := entry :: shard.order.eraseP fun held => held.key = cacheKey subject }) := by
  unfold RowCache.lookupAt
  cases refused : cache.refuses (cacheKey subject) gen with
  | true => exact .inl (by simp [refused])
  | false =>
    cases found : (cache.shard (cacheKey subject)).order.find?
        fun entry => entry.key = cacheKey subject with
    | none => exact .inl (by simp [refused, found])
    | some entry =>
      have own : entry.key = cacheKey subject := by
        simpa using find?_some found
      by_cases same : entry.gen = gen
      · exact .inr ⟨entry, mem_of_find?_eq_some found, rfl, own, same,
          by simp [refused, found, same]⟩
      · exact .inl (by simp [refused, found, same])

end Views

namespace World

variable {table : Slots} {finished : Nat} {world : World}

structure Sound (table : Slots) (finished : Nat) (world : World) : Prop where
  guarded : Guarded world.cache world.writes
  views : Views table finished world
  correct : ∀ reader ∈ world.readers, reader.Correct table

theorem Sound.later (sound : world.Sound table finished) : world.Sound table (finished + 1) where
  guarded := sound.guarded
  views := { sound.views with
    counted := fun tenant => Nat.le_succ_of_le (sound.views.counted tenant) }
  correct := sound.correct

theorem Sound.advance (sound : world.Sound table finished) {index : Nat}
    {next : Write → Option (Phase × RowCache)}
    (steps : ∀ write phase cache, world.writes[index]? = some write →
      next write = some (phase, cache) →
      Guarded cache (world.writes.set index { write with phase }) ∧
        Views table finished { world with
          cache, writes := world.writes.set index { write with phase } }) :
    (world.advance index next).Sound table finished := by
  unfold World.advance
  cases found : world.writes[index]? with
  | none => exact sound
  | some write =>
    cases moved : next write with
    | none => simpa only [moved] using sound
    | some result =>
      obtain ⟨phase, cache⟩ := result
      obtain ⟨guarded, views⟩ := steps write phase cache found moved
      simp only [moved]
      exact ⟨guarded, views, sound.correct⟩

theorem Sound.act (sound : world.Sound table finished) {index : Nat}
    {next : Reader → Option (Reader × RowCache)}
    (steps : ∀ reader after cache, world.readers[index]? = some reader →
      next reader = some (after, cache) →
      Guarded cache world.writes ∧
        Views table finished { world with cache, readers := world.readers.set index after } ∧
        after.Correct table) :
    (world.act index next).Sound table finished := by
  unfold World.act
  cases found : world.readers[index]? with
  | none => exact sound
  | some reader =>
    cases moved : next reader with
    | none => simpa only [moved] using sound
    | some result =>
      obtain ⟨after, cache⟩ := result
      obtain ⟨guarded, views, correct⟩ := steps reader after cache found moved
      simp only [moved]
      refine ⟨guarded, views, ?_⟩
      intro other listed
      rcases mem_or_eq_of_mem_set listed with earlier | rfl
      · exact sound.correct other earlier
      · exact correct

theorem Sound.lookup (sound : world.Sound table finished) (index : Nat) (subject : Subject) :
    (world.act index (lookupRow table world.cache subject)).Sound table finished := by
  apply sound.act
  intro reader after cache found moved
  have listed := mem_of_getElem? found
  have correct := sound.correct reader listed
  unfold lookupRow at moved
  cases taken : reader.snapshot with
  | none => simp [taken] at moved
  | some snapshot =>
    cases idle : reader.pending with
    | some other => simp [taken, idle] at moved
    | none =>
      simp only [taken, idle] at moved
      by_cases foreign : (cacheKey subject).tenant ≠ reader.tenant
      · rw [if_pos foreign, Option.some.injEq, Prod.mk.injEq] at moved
        obtain ⟨rfl, rfl⟩ := moved
        refine ⟨sound.guarded, sound.views.withReader found rfl rfl (.inl taken.symm), ?_⟩
        exact correct.answer taken rfl rfl rfl rfl
      rw [if_neg foreign] at moved
      have own : (cacheKey subject).tenant = reader.tenant := not_not.mp foreign
      rcases world.cache.lookupAt_cases (cacheKey subject) reader.gen with
        miss | ⟨entry, held, serves, key, gen, hit⟩
      · rw [miss, Option.some.injEq, Prod.mk.injEq] at moved
        obtain ⟨rfl, rfl⟩ := moved
        refine ⟨sound.guarded, sound.views.withReader found rfl rfl (.inl taken.symm), ?_⟩
        refine ⟨?_, ?_⟩
        · rw [← taken]
          exact correct.answered
        · rintro other pending
          cases pending
          exact ⟨own, cacheKey_cacheKey subject⟩
      · rw [hit, Option.some.injEq, Prod.mk.injEq] at moved
        obtain ⟨rfl, rfl⟩ := moved
        rw [cacheKey_cacheKey] at *
        obtain ⟨current, outside, same⟩ := sound.views.current sound.guarded listed taken
          own (cacheKey_cacheKey subject) serves
        have inCache := RowCache.holds_of_mem_shard held
        have agrees := (sound.views.entries entry inCache
          (by rw [gen, key, current])).resolve_left (key ▸ outside)
        refine ⟨sound.guarded.withShard _ fun _ => rfl, ?_, ?_⟩
        · exact (sound.views.moveToFront held).withReader found rfl rfl (.inl taken.symm)
        · refine correct.answer taken rfl rfl rfl ?_
          rw [← same, ← agrees, key]

theorem Sound.fetch (sound : world.Sound table finished) (index : Nat) :
    (world.act index (fetchRow table world.cache)).Sound table finished := by
  apply sound.act
  intro reader after cache found moved
  have listed := mem_of_getElem? found
  have correct := sound.correct reader listed
  unfold fetchRow at moved
  cases taken : reader.snapshot with
  | none => simp [taken] at moved
  | some snapshot =>
    cases pending : reader.pending with
    | none => simp [taken, pending] at moved
    | some subject =>
      obtain ⟨own, normal⟩ := correct.missed subject pending
      simp only [taken, pending, Option.some.injEq, Prod.mk.injEq] at moved
      obtain ⟨rfl, rfl⟩ := moved
      refine and_assoc.mp ⟨?_, correct.answer taken rfl rfl rfl rfl⟩
      cases decoded : decodeRowFrom table snapshot subject with
      | none =>
        exact ⟨sound.guarded, sound.views.withReader found rfl rfl (.inl taken.symm)⟩
      | some row =>
        unfold RowCache.storeAt
        simp only [normal]
        cases serves : world.cache.refuses subject reader.gen with
        | true =>
          exact ⟨sound.guarded, sound.views.withReader found rfl rfl (.inl taken.symm)⟩
        | false =>
          obtain ⟨current, _, same⟩ := sound.views.current sound.guarded listed taken
            own normal serves
          simp only [Bool.false_eq_true, if_false]
          refine ⟨sound.guarded.withShard _ staged_push, ?_⟩
          · exact (sound.views.push normal current (same.trans decoded)).withReader found
              rfl rfl (.inl taken.symm)

theorem holds_clearNext {cache : RowCache} {entry : CacheEntry}
    (held : cache.clearNext.Holds entry) : cache.Holds entry := by
  unfold RowCache.clearNext at held
  split at held
  · exact held
  next cleared _ _ =>
  obtain ⟨index, listed⟩ := held
  refine ⟨index, ?_⟩
  by_cases same : index = cleared
  · simp [same, Shard.clear] at listed
  · simpa [Function.update_of_ne same] using listed

theorem Sound.step (sound : world.Sound table finished) (event : Event)
    (room : finished + event.bumps < UInt64.size) :
    (world.step table event).Sound table (finished + event.bumps) := by
  cases event with
  | begin =>
    exact ⟨sound.guarded, sound.views.mono rfl rfl rfl (fun _ held => held)
      (fun _ window => window), sound.correct⟩
  | draw transaction subject change =>
    dsimp only [World.step]
    split
    · refine ⟨sound.guarded.drawn rfl, sound.views.mono rfl rfl rfl (fun _ held => held) ?_,
        sound.correct⟩
      rintro key ⟨write, listed, marked⟩
      exact ⟨write, mem_append_left _ listed, marked⟩
    · exact sound
  | enter index =>
    apply sound.advance
    intro write phase cache found moved
    split at moved
    · next drawn =>
      cases moved
      refine ⟨sound.guarded.enter found drawn.1, sound.views.mono rfl rfl rfl
        (fun _ held => held) fun key => InWindow.set found ?_⟩
      simp [drawn.1, Phase.isMarked]
    · cases moved
  | mark index =>
    apply sound.advance
    intro write phase cache found moved
    split at moved
    · next record entered =>
      cases moved
      refine ⟨sound.guarded.mark found entered, sound.views.mono rfl ?_ rfl ?_
        fun key => InWindow.set found ?_⟩
      · cases record <;> rfl
      · exact fun entry => RowCache.holds_of_mark
      · simp [entered, Phase.isMarked]
    · cases moved
  | apply transaction =>
    dsimp only [World.step]
    split
    · next ready => exact ⟨sound.guarded, sound.views.apply ready, sound.correct⟩
    · exact sound
  | finish transaction =>
    dsimp only [World.step]
    split
    · exact ⟨sound.guarded, sound.views.mono rfl rfl rfl (fun _ held => held)
        (fun _ window => window), sound.correct⟩
    · exact sound
  | bump index =>
    apply sound.later.advance
    intro write phase cache found moved
    split at moved
    · next record marked =>
      split at moved
      · cases moved
        exact ⟨sound.guarded.bump found marked _, sound.views.bump room found⟩
      · cases moved
    · cases moved
  | release index =>
    apply sound.advance
    intro write phase cache found moved
    split at moved
    · next record bumped =>
      cases moved
      refine ⟨sound.guarded.release found bumped, sound.views.mono rfl rfl rfl ?_
        fun key => InWindow.set found ?_⟩
      · exact fun entry => RowCache.holds_of_release
      · simp [bumped, Phase.isMarked]
    · cases moved
  | leave index =>
    apply sound.advance
    intro write phase cache found moved
    split at moved
    · next released =>
      cases moved
      refine ⟨sound.guarded.leave found released.1 released.2, sound.views.mono rfl rfl rfl
        (fun _ held => held) fun key => InWindow.set found ?_⟩
      simp [released.1, Phase.isMarked]
    · cases moved
  | clear =>
    refine ⟨sound.guarded.clearNext, sound.views.mono rfl ?_ rfl (fun _ => holds_clearNext)
      (fun _ window => window), sound.correct⟩
    change world.cache.clearNext.gens = _
    unfold RowCache.clearNext
    split <;> rfl
  | openReader tenant =>
    refine ⟨sound.guarded, sound.views.opened tenant, ?_⟩
    intro reader listed
    rcases mem_append.mp listed with earlier | new
    · exact sound.correct reader earlier
    · rw [mem_singleton.mp new]
      exact ⟨by simp, by simp⟩
  | takeSnapshot index =>
    apply sound.act
    intro reader after cache found moved
    split at moved
    · next untaken =>
      cases moved
      refine ⟨sound.guarded, sound.views.withReader found rfl rfl (.inr rfl), ?_⟩
      have correct := sound.correct reader (mem_of_getElem? found)
      refine ⟨fun answer listed => ?_, correct.missed⟩
      obtain ⟨snapshot, taken, _⟩ := correct.answered answer listed
      rw [untaken] at taken
      cases taken
    · cases moved
  | lookup index subject => exact sound.lookup index subject
  | fetch index => exact sound.fetch index

theorem sound_start (table : Slots) (store : Store) {entries : Int} {cache : RowCache}
    (built : RowCache.new entries = some cache) : Sound table 0 { store, cache } := by
  unfold RowCache.new at built
  split at built
  · cases built
  cases built
  constructor
  · exact ⟨fun _ => by simp_all, rfl, rfl, by simp, .inr fun _ _ => Nat.zero_le _⟩
  · have nothing : ∀ entry, ¬ RowCache.Holds { shards := fun _ =>
        { capacity := ((entries + 15) / 16).toNat } } entry := by
      rintro entry ⟨index, listed⟩
      cases listed
    exact ⟨fun _ => le_rfl, fun entry held => absurd held (nothing entry),
      fun entry held => absurd held (nothing entry),
      fun entry held => absurd held (nothing entry), by simp, by simp⟩
  · simp

/-- The generations come back to no earlier value in a run that finishes fewer writes than
a `uint64` counts. -/
theorem Sound.run (sound : world.Sound table finished) (events : List Event)
    (few : finished + (events.map Event.bumps).sum < UInt64.size) :
    (events.foldl (World.step table) world).Sound table
      (finished + (events.map Event.bumps).sum) := by
  induction events generalizing world finished with
  | nil => exact sound
  | cons event rest hyp =>
    rw [map_cons, sum_cons, ← Nat.add_assoc] at few ⊢
    exact hyp (sound.step event (by omega)) few

end World

/-- In every run of any transactions and readers over the cache, whatever trips the
gate and however it recovers, each row a reader returns is the one its own snapshot
holds. The run finishes fewer writes than the generations, which are `uint64`s, count. -/
theorem row_cache_snapshot_correct (table : Slots) (store : Store) (entries : Int)
    (cache : RowCache) (built : RowCache.new entries = some cache) (events : List Event)
    (few : (events.map Event.bumps).sum < UInt64.size) :
    ∀ reader ∈ (World.run table store cache events).readers, ∀ answer ∈ reader.answers,
      ∃ snapshot, reader.snapshot = some snapshot ∧
        answer.2 = decodeRowFrom table snapshot answer.1 := by
  rw [← Nat.zero_add (events.map Event.bumps).sum] at few
  have sound := (World.sound_start table store built).run events few
  exact fun reader listed => (sound.correct reader listed).answered

/-- A reader caches a row and is served it again; then a transaction deletes the row,
and the reader still answers from its snapshot while a later reader sees the row gone. -/
theorem row_cache_snapshot_correct_deleted :
    let subject : Subject := ⟨ascii "acme", defaultNamespace, Id.filled 1⟩
    let store := OrderedMap.empty.set (rowKey subject) [1, 0, 0, 0, 1, 0]
    let events := [.openReader (ascii "acme"), .takeSnapshot 0, .lookup 0 subject, .fetch 0,
      .lookup 0 subject, .begin, .draw 0 subject none, .enter 0, .mark 0, .apply 0,
      .lookup 0 subject, .fetch 0, .finish 0, .bump 0, .release 0, .leave 0,
      .lookup 0 subject, .fetch 0, .openReader (ascii "acme"), .takeSnapshot 1,
      .lookup 1 subject, .fetch 1]
    ∃ cache, RowCache.new 16384 = some cache ∧
      let world := World.run (Slots.new 1) store cache events
      (world.readers.map fun reader => reader.answers.map fun answer => answer.2.isSome) =
          [[true, true, true, true], [false]] ∧
        ∀ reader ∈ world.readers, ∀ answer ∈ reader.answers,
          ∃ snapshot, reader.snapshot = some snapshot ∧
            answer.2 = decodeRowFrom (Slots.new 1) snapshot answer.1 := by
  intro subject store events
  refine ⟨_, rfl, ?_, row_cache_snapshot_correct (Slots.new 1) store 16384 _ rfl events
    (by decide)⟩
  decide +kernel

end Remem.Attr
