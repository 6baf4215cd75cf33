import OsLabs.Foundation.Scripts
import OsLabs.Log.LogCore

/-!
`commit` and `recover_from_log` cut at any point. What the disk says at each moment is
a header and the copies it names; the transactions whose header was written are all
there, installed or still to install.
-/

namespace OsLabs.Log

open Function OsLabs.ByteField OsLabs.Scripts

def apply (updates : List Update) (disk : Nat → Block) : Nat → Block :=
  updates.foldl (fun disk update => Function.update disk update.1 update.2) disk

def replay (transactions : List (List Update)) (disk : Nat → Block) : Nat → Block :=
  transactions.foldl (fun disk updates => apply updates disk) disk

theorem apply_concat (updates : List Update) (update : Update) (disk : Nat → Block) :
    apply (updates ++ [update]) disk = Function.update (apply updates disk) update.1 update.2 := by
  rw [apply, List.foldl_concat, apply]

theorem apply_of_notMem {updates : List Update} {block : Nat} (disk : Nat → Block)
    (absent : block ∉ updates.map Prod.fst) : apply updates disk block = disk block := by
  induction updates generalizing disk with
  | nil => rfl
  | cons update rest ih =>
      simp only [List.map_cons, List.mem_cons, not_or] at absent
      rw [apply, List.foldl_cons, ← apply, ih _ absent.2, update_of_ne absent.1]

theorem replay_concat (transactions : List (List Update)) (updates : List Update)
    (disk : Nat → Block) :
    replay (transactions ++ [updates]) disk = apply updates (replay transactions disk) := by
  rw [replay, List.foldl_concat, replay]

theorem decodeHead_encodeHead (data : Block) {lh : List Nat} (short : lh.length < 256 ^ 4)
    (small : ∀ block ∈ lh, block < 256 ^ 4) : decodeHead (encodeHead lh data) = lh := by
  have count : load 4 (encodeHead lh data) 0 = lh.length := by
    rw [encodeHead, load_storeAll_apart _ _ _ _ (by omega), load_store, Nat.mod_eq_of_lt short]
  rw [decodeHead, count, encodeHead, loadAll_storeAll 4 _ _ small]

/-- The header on the disk names the blocks `lh`, their copies are in the log, and every
other home block already has its contents. -/
structure Logged (area : Area) (target disk : Nat → Block) (lh : List Nat) : Prop where
  header : decodeHead (disk area.start) = lh
  room : lh.length < area.size
  homes : ∀ block ∈ lh, area.Home block
  slots : ∀ tail block, lh[tail]? = some block → disk (area.start + tail + 1) = target block
  rest : ∀ block, area.Home block → block ∉ lh → disk block = target block

def Recoverable (area : Area) (base : Nat → Block) (s : Store) : Prop :=
  ∃ lh, Logged area (replay s.committed base) s.disk lh

structure Settled (area : Area) (target disk : Nat → Block) : Prop where
  header : decodeHead (disk area.start) = []
  home : ∀ block, area.Home block → disk block = target block

theorem Settled.logged {area : Area} {target disk : Nat → Block} (settled : Settled area target disk) :
    Logged area target disk [] where
  header := settled.header
  room := area.positive
  homes := by simp
  slots := by simp
  rest block home _ := settled.home block home

theorem home_ne_start {area : Area} {block : Nat} (home : area.Home block) : block ≠ area.start := by
  have positive := area.positive
  have outside := home.1
  omega

theorem home_ne_slot {area : Area} {block tail : Nat} (home : area.Home block)
    (room : tail + 1 < area.size) : block ≠ area.start + tail + 1 := by
  have outside := home.1
  omega

section Rules

variable {area : Area} {base : Nat → Block} {floor : List (List Update)} {s : Store} {regs : Regs}
  {after : Store × Regs → Prop} {rest : List Instr}

/-- No operation can begin: a commit is going on, or the machine has not booted and nothing
has been committed since the reset. -/
def Shut (floor : List (List Update)) (s : Store) : Prop :=
  (s.committing = true ∨ s.booted = false) ∧ (s.booted = false → s.committed = floor)

structure Cut (area : Area) (base : Nat → Block) (floor : List (List Update)) (s : Store) : Prop where
  recoverable : Recoverable area base s
  shut : Shut floor s

abbrev SafeLog (area : Area) (base : Nat → Block) (floor : List (List Update))
    (after : Store × Regs → Prop) (script : List Instr) (s : Store) (regs : Regs) : Prop :=
  Safe (exec area) (fun state => Cut area base floor state.1) after script (s, regs)

theorem safe_bread {r block : Nat} {place : Place} (now : Cut area base floor s)
    (named : place.block area s.lh = some block)
    (later : SafeLog area base floor after rest s (update regs r (some block))) :
    SafeLog area base floor after (.bread r place :: rest) s regs :=
  safe_single now (by rw [exec, named, Option.map_some]) later

theorem safe_copy {target source toBlock fromBlock : Nat} (now : Cut area base floor s)
    (aim : regs target = some toBlock) (origin : regs source = some fromBlock)
    (later : SafeLog area base floor after rest (s.modify toBlock (s.view fromBlock)) regs) :
    SafeLog area base floor after (.copy target source :: rest) s regs :=
  safe_single now (by rw [exec, aim, origin, Option.bind_some, Option.map_some]) later

theorem safe_bwrite {r block : Nat} (now : Cut area base floor s) (holds : regs r = some block)
    (later : SafeLog area base floor after rest (s.bwrite block) regs) :
    SafeLog area base floor after (.bwrite r :: rest) s regs :=
  safe_single now (by rw [exec, holds, Option.map_some]) later

theorem safe_brelse {r : Nat} (now : Cut area base floor s)
    (later : SafeLog area base floor after rest s (update regs r none)) :
    SafeLog area base floor after (.brelse r :: rest) s regs :=
  safe_single now rfl later

theorem bwrite_modify (s : Store) (block : Nat) (data : Block) :
    (s.modify block data).bwrite block =
      { s with
        disk := update s.disk block data
        view := update s.view block data } := by
  simp only [Store.modify, Store.bwrite, update_self]

theorem safe_transfer {target source toBlock fromBlock : Nat} (now : ∀ view,
      Cut area base floor { s with view }) (aim : regs target = some toBlock)
    (origin : regs source = some fromBlock)
    (later : SafeLog area base floor after rest
      { s with
        disk := update s.disk toBlock (s.view fromBlock)
        view := update s.view toBlock (s.view fromBlock) } regs) :
    SafeLog area base floor after (.copy target source :: .bwrite target :: rest) s regs := by
  refine safe_copy (now s.view) aim origin (safe_bwrite (now _) aim ?_)
  rw [bwrite_modify]
  exact later

theorem safe_putHead {r block : Nat} (now : Cut area base floor s) (holds : regs r = some block)
    (later : SafeLog area base floor after rest (s.modify block (encodeHead s.lh (s.view block))) regs) :
    SafeLog area base floor after (.putHead r :: rest) s regs :=
  safe_single now (by rw [exec, holds, Option.map_some]) later

theorem safe_bwriteHead {r block : Nat} (now : Cut area base floor s)
    (holds : regs r = some block)
    (later : SafeLog area base floor after rest (s.bwrite block).commitPoint regs) :
    SafeLog area base floor after (.bwriteHead r :: rest) s regs :=
  safe_single now (by rw [exec, holds, Option.map_some]) later

theorem safe_loadHead {r block : Nat} (now : Cut area base floor s) (holds : regs r = some block)
    (later : SafeLog area base floor after rest { s with lh := decodeHead (s.view block) } regs) :
    SafeLog area base floor after (.loadHead r :: rest) s regs :=
  safe_single now (by rw [exec, holds, Option.map_some]) later

end Rules

section WriteLog

variable {area : Area} {base : Nat → Block} {floor : List (List Update)} {s : Store}
  {after : Store × Regs → Prop} {rest : List Instr} {target goal disk view : Nat → Block}

structure Copied (area : Area) (target goal : Nat → Block) (lh : List Nat) (tail : Nat)
    (disk view : Nat → Block) : Prop where
  settled : Settled area target disk
  seen : ∀ block, area.Home block → view block = goal block
  slots : ∀ index block, index < tail → lh[index]? = some block →
    disk (area.start + index + 1) = goal block ∧ view (area.start + index + 1) = goal block

theorem Copied.copy {lh : List Nat} {tail block : Nat}
    (copied : Copied area target goal lh tail disk view) (room : lh.length < area.size)
    (named : lh[tail]? = some block) (home : area.Home block) :
    Copied area target goal lh (tail + 1)
      (update disk (area.start + tail + 1) (view block))
      (update view (area.start + tail + 1) (view block)) := by
  obtain ⟨bound, _⟩ := List.getElem?_eq_some_iff.mp named
  have slot : tail + 1 < area.size := by omega
  refine ⟨⟨?_, ?_⟩, ?_, ?_⟩
  · rw [update_of_ne (by omega)]
    exact copied.settled.header
  · intro other otherHome
    rw [update_of_ne (home_ne_slot otherHome slot)]
    exact copied.settled.home other otherHome
  · intro other otherHome
    rw [update_of_ne (home_ne_slot otherHome slot)]
    exact copied.seen other otherHome
  · intro index other below otherNamed
    by_cases last : index = tail
    · subst index
      rw [named, Option.some.injEq] at otherNamed
      subst otherNamed
      simp only [update_self]
      exact ⟨copied.seen block home, copied.seen block home⟩
    · rw [update_of_ne (by omega), update_of_ne (by omega)]
      exact copied.slots index other (by omega) otherNamed

theorem Copied.cut {lh : List Nat} {tail : Nat}
    (copied : Copied area (replay s.committed base) goal lh tail disk view) (shut : Shut floor s)
    (seen : Nat → Block) : Cut area base floor { s with disk, view := seen } :=
  ⟨⟨[], copied.settled.logged⟩, shut⟩

theorem writeLog_safe (shut : Shut floor s) (room : s.lh.length < area.size)
    (homes : ∀ block ∈ s.lh, area.Home block)
    (later : ∀ disk view regs,
      Copied area (replay s.committed base) goal s.lh s.lh.length disk view →
      SafeLog area base floor after rest { s with disk, view } regs)
    (count : Nat) : ∀ tail disk view regs, tail + count = s.lh.length →
      Copied area (replay s.committed base) goal s.lh tail disk view →
      SafeLog area base floor after (.writeLog tail :: rest) { s with disk, view } regs := by
  induction count with
  | zero =>
      intro tail disk view regs whole copied
      have ended : ¬tail < s.lh.length := by omega
      obtain rfl : tail = s.lh.length := by omega
      exact safe_cons (copied.cut shut view) (if_neg ended) (later disk view regs copied)
  | succ count ih =>
      intro tail disk view regs whole copied
      have more : tail < s.lh.length := by omega
      have named : s.lh[tail]? = some s.lh[tail] := List.getElem?_eq_getElem more
      have home := homes _ (List.getElem_mem more)
      have next := copied.copy room named home
      have before := copied.cut shut view
      have written := next.cut shut (update view (area.start + tail + 1) (view s.lh[tail]))
      refine safe_cons before (if_pos more) (safe_bread before rfl (safe_bread before named ?_))
      refine safe_transfer (copied.cut shut) rfl rfl (safe_brelse written (safe_brelse written ?_))
      exact ih (tail + 1) _ _ _ (by omega) next

end WriteLog

section InstallTrans

variable {area : Area} {base : Nat → Block} {floor : List (List Update)} {s : Store}
  {after : Store × Regs → Prop} {rest : List Instr} {target disk view : Nat → Block}

structure Installed (area : Area) (target : Nat → Block) (lh : List Nat) (tail : Nat)
    (disk view : Nat → Block) : Prop where
  logged : Logged area target disk lh
  copies : ∀ index block, lh[index]? = some block → view (area.start + index + 1) = target block
  others : ∀ block, area.Home block → block ∉ lh → view block = target block
  installed : ∀ index block, index < tail → lh[index]? = some block →
    disk block = target block ∧ view block = target block

theorem Logged.home {lh : List Nat} {index block : Nat} (logged : Logged area target disk lh)
    (named : lh[index]? = some block) : area.Home block :=
  logged.homes block (List.mem_of_getElem? named)

theorem Logged.slot {lh : List Nat} {index block : Nat} (logged : Logged area target disk lh)
    (named : lh[index]? = some block) : index + 1 < area.size := by
  obtain ⟨bound, _⟩ := List.getElem?_eq_some_iff.mp named
  have room := logged.room
  omega

theorem Logged.install {lh : List Nat} {block : Nat} (logged : Logged area target disk lh)
    (home : area.Home block) :
    Logged area target (update disk block (target block)) lh := by
  refine ⟨?_, logged.room, logged.homes, ?_, ?_⟩
  · rw [update_of_ne (home_ne_start home).symm]
    exact logged.header
  · intro index other named
    rw [update_of_ne (home_ne_slot home (logged.slot named)).symm]
    exact logged.slots index other named
  · intro other otherHome absent
    rw [update_apply]
    split
    next same => rw [same]
    next => exact logged.rest other otherHome absent

theorem Installed.install {lh : List Nat} {tail block : Nat}
    (installed : Installed area target lh tail disk view) (named : lh[tail]? = some block) :
    Installed area target lh (tail + 1)
      (update disk block (view (area.start + tail + 1)))
      (update view block (view (area.start + tail + 1))) := by
  have home := installed.logged.home named
  rw [installed.copies tail block named]
  refine ⟨installed.logged.install home, ?_, ?_, ?_⟩
  · intro index other otherNamed
    rw [update_of_ne (home_ne_slot home (installed.logged.slot otherNamed)).symm]
    exact installed.copies index other otherNamed
  · intro other otherHome absent
    have different : other ≠ block := fun same =>
      absent (same ▸ List.mem_of_getElem? named)
    rw [update_of_ne different]
    exact installed.others other otherHome absent
  · intro index other below otherNamed
    by_cases same : other = block
    · simp only [same, update_self, and_self]
    · rw [update_of_ne same, update_of_ne same]
      refine installed.installed index other ?_ otherNamed
      have different : index ≠ tail := by
        intro last
        rw [last, named, Option.some.injEq] at otherNamed
        exact same otherNamed.symm
      omega

theorem Installed.all {lh : List Nat} (installed : Installed area target lh lh.length disk view)
    (block : Nat) (home : area.Home block) : disk block = target block ∧ view block = target block := by
  by_cases member : block ∈ lh
  · obtain ⟨index, bound, named⟩ := List.mem_iff_getElem.mp member
    exact installed.installed index block bound (List.getElem?_eq_some_iff.mpr ⟨bound, named⟩)
  · exact ⟨installed.logged.rest block home member, installed.others block home member⟩

theorem Installed.cut {lh : List Nat} {tail : Nat}
    (installed : Installed area (replay s.committed base) lh tail disk view) (shut : Shut floor s)
    (seen : Nat → Block) : Cut area base floor { s with disk, view := seen } :=
  ⟨⟨lh, installed.logged⟩, shut⟩

theorem installTrans_safe (shut : Shut floor s)
    (later : ∀ disk view regs,
      Installed area (replay s.committed base) s.lh s.lh.length disk view →
      SafeLog area base floor after rest { s with disk, view } regs)
    (count : Nat) : ∀ tail disk view regs, tail + count = s.lh.length →
      Installed area (replay s.committed base) s.lh tail disk view →
      SafeLog area base floor after (.installTrans tail :: rest) { s with disk, view } regs := by
  induction count with
  | zero =>
      intro tail disk view regs whole installed
      have ended : ¬tail < s.lh.length := by omega
      obtain rfl : tail = s.lh.length := by omega
      exact safe_cons (installed.cut shut view) (if_neg ended) (later disk view regs installed)
  | succ count ih =>
      intro tail disk view regs whole installed
      have more : tail < s.lh.length := by omega
      have named : s.lh[tail]? = some s.lh[tail] := List.getElem?_eq_getElem more
      have next := installed.install named
      have before := installed.cut shut view
      have written := next.cut shut (update view s.lh[tail] (view (area.start + tail + 1)))
      refine safe_cons before (if_pos more) (safe_bread before rfl (safe_bread before named ?_))
      refine safe_transfer (installed.cut shut) rfl rfl
        (safe_brelse written (safe_brelse written ?_))
      exact ih (tail + 1) _ _ _ (by omega) next

end InstallTrans

section WriteHead

variable {area : Area} {base : Nat → Block} {floor : List (List Update)} {s : Store}
  {after : Store × Regs → Prop} {rest : List Instr} {regs : Regs}

def Store.headWritten (area : Area) (s : Store) : Store :=
  Store.commitPoint
    { s with
      disk := update s.disk area.start (encodeHead s.lh (s.view area.start))
      view := update s.view area.start (encodeHead s.lh (s.view area.start)) }

theorem writeHead_safe (now : ∀ view, Cut area base floor { s with view })
    (written : Cut area base floor (s.headWritten area))
    (later : ∀ regs, SafeLog area base floor after rest (s.headWritten area) regs) :
    SafeLog area base floor after (.writeHead :: rest) s regs := by
  refine safe_cons (now s.view) rfl (safe_bread (now s.view) rfl ?_)
  refine safe_putHead (now s.view) rfl (safe_bwriteHead (now _) rfl ?_)
  rw [bwrite_modify]
  exact safe_brelse written (later _)

theorem headWritten_empty (empty : s.lh = []) :
    s.headWritten area =
      { s with
        disk := update s.disk area.start (encodeHead [] (s.view area.start))
        view := update s.view area.start (encodeHead [] (s.view area.start)) } := by
  simp only [Store.headWritten, Store.commitPoint, empty, if_true]

theorem headWritten_nonempty (nonempty : s.lh ≠ []) :
    s.headWritten area =
      { s with
        disk := update s.disk area.start (encodeHead s.lh (s.view area.start))
        view := update s.view area.start (encodeHead s.lh (s.view area.start))
        pending := []
        committed := s.committed ++ [s.pending] } := by
  simp only [Store.headWritten, Store.commitPoint, if_neg nonempty]

theorem settled_erased {target disk : Nat → Block} (data : Block)
    (home : ∀ block, area.Home block → disk block = target block) :
    Settled area target (update disk area.start (encodeHead [] data)) := by
  refine ⟨?_, ?_⟩
  · rw [update_self, decodeHead_encodeHead data (by decide) (by simp)]
  · intro block blockHome
    rw [update_of_ne (home_ne_start blockHome)]
    exact home block blockHome

/-- The commit point: the header names the blocks whose copies are in the log. -/
theorem Copied.logged {target goal disk view : Nat → Block} {lh : List Nat} (data : Block)
    (copied : Copied area target goal lh lh.length disk view) (room : lh.length < area.size)
    (short : lh.length < 256 ^ 4) (homes : ∀ block ∈ lh, area.Home block)
    (same : ∀ block, block ∉ lh → goal block = target block) :
    Logged area goal (update disk area.start (encodeHead lh data)) lh := by
  refine ⟨?_, room, homes, ?_, ?_⟩
  · rw [update_self]
    exact decodeHead_encodeHead data short fun block member => (homes block member).2
  · intro index block named
    obtain ⟨bound, _⟩ := List.getElem?_eq_some_iff.mp named
    rw [update_of_ne (by omega)]
    exact (copied.slots index block bound named).1
  · intro block home absent
    rw [update_of_ne (home_ne_start home), same block absent]
    exact copied.settled.home block home

end WriteHead

section Whole

variable {area : Area} {base : Nat → Block} {floor : List (List Update)} {s : Store} {regs : Regs}

structure Calm (area : Area) (base : Nat → Block) (s : Store) : Prop where
  booted : s.booted = true
  idle : s.committing = false
  outstanding : s.outstanding = 0
  saved : s.unsaved = ∅
  lh : s.lh = []
  pending : s.pending = []
  settled : Settled area (replay s.committed base) s.disk
  seen : ∀ block, area.Home block → s.view block = replay s.committed base block

theorem erase_safe {after : Store × Regs → Prop} {rest : List Instr} {disk view : Nat → Block}
    (shut : Shut floor s)
    (installed : Installed area (replay s.committed base) s.lh s.lh.length disk view)
    (later : ∀ disk view regs, Settled area (replay s.committed base) disk →
      (∀ block, area.Home block → view block = replay s.committed base block) →
      SafeLog area base floor after rest { s with disk, view, lh := [] } regs) :
    SafeLog area base floor after (.clearHead :: .writeHead :: rest) { s with disk, view } regs := by
  have home := installed.all
  have erased := settled_erased (view area.start) fun block blockHome => (home block blockHome).1
  refine safe_single (installed.cut shut view) rfl (writeHead_safe ?_ ?_ ?_)
  · intro seen
    exact ⟨⟨s.lh, installed.logged⟩, shut⟩
  · rw [headWritten_empty rfl]
    exact ⟨⟨[], erased.logged⟩, shut⟩
  · intro regs
    rw [headWritten_empty rfl]
    refine later _ _ regs erased ?_
    intro block blockHome
    rw [update_of_ne (home_ne_start blockHome)]
    exact (home block blockHome).2

theorem install_safe {after : Store × Regs → Prop} {rest : List Instr} (s : Store)
    (shut : Shut floor s)
    (installed : Installed area (replay s.committed base) s.lh 0 s.disk s.view)
    (later : ∀ disk view regs, Settled area (replay s.committed base) disk →
      (∀ block, area.Home block → view block = replay s.committed base block) →
      SafeLog area base floor after rest { s with disk, view, lh := [] } regs) :
    SafeLog area base floor after (.installTrans 0 :: .clearHead :: .writeHead :: rest) s regs := by
  refine installTrans_safe shut ?_ s.lh.length 0 s.disk s.view regs (Nat.zero_add _) installed
  intro disk view regs whole
  exact erase_safe shut whole later

/-- Outside a commit: the disk is that of the committed transactions, and what the cache
adds to it is the transaction in memory, except in the blocks being modified. -/
structure Running (area : Area) (base : Nat → Block) (s : Store) : Prop where
  booted : s.booted = true
  nodup : s.lh.Nodup
  short : s.lh.length ≤ logSize
  homes : ∀ block ∈ s.lh, area.Home block
  names : ∀ block, block ∈ s.pending.map Prod.fst ↔ block ∈ s.lh
  settled : Settled area (replay s.committed base) s.disk
  seen : ∀ block, area.Home block → block ∉ s.unsaved →
    s.view block = apply s.pending (replay s.committed base) block

theorem Calm.running (calm : Calm area base s) : Running area base s where
  booted := calm.booted
  nodup := by rw [calm.lh]; exact List.nodup_nil
  short := by rw [calm.lh]; exact Nat.zero_le _
  homes := by simp [calm.lh]
  names := by simp [calm.lh, calm.pending]
  settled := calm.settled
  seen block home _ := by rw [calm.pending]; exact calm.seen block home

theorem Running.short_lt (running : Running area base s) : s.lh.length < 256 ^ 4 :=
  running.short.trans_lt (by decide)

theorem Running.recoverable (running : Running area base s) : Recoverable area base s :=
  ⟨[], running.settled.logged⟩

theorem Running.prepared (running : Running area base s) (saved : s.unsaved = ∅) :
    Copied area (replay s.committed base) (apply s.pending (replay s.committed base)) s.lh 0 s.disk
      s.view where
  settled := running.settled
  seen block home := running.seen block home (by simp [saved])
  slots := by simp

theorem Running.committed {disk view : Nat → Block} (running : Running area base s)
    (room : s.lh.length < area.size)
    (copied : Copied area (replay s.committed base) (apply s.pending (replay s.committed base)) s.lh
      s.lh.length disk view) (data seen : Block) :
    Installed area (replay (s.committed ++ [s.pending]) base) s.lh 0
      (update disk area.start (encodeHead s.lh data))
      (update view area.start seen) := by
  have logged := copied.logged data room running.short_lt running.homes fun block absent =>
    apply_of_notMem _ (fun member => absent ((running.names block).mp member))
  rw [replay_concat]
  refine ⟨logged, ?_, ?_, by simp⟩
  · intro index block named
    obtain ⟨bound, _⟩ := List.getElem?_eq_some_iff.mp named
    rw [update_of_ne (by omega)]
    exact (copied.slots index block bound named).2
  · intro block home _
    rw [update_of_ne (home_ne_start home)]
    exact copied.seen block home

theorem Running.nothing (running : Running area base s) (empty : s.lh = []) : s.pending = [] := by
  have names : s.pending.map Prod.fst = [] :=
    List.eq_nil_iff_forall_not_mem.mpr fun block member => by
      simpa [empty] using (running.names block).mp member
  exact List.map_eq_nil_iff.mp names

theorem commit_safe (running : Running area base s) (room : s.lh.length < area.size) (shut : Shut floor s)
    (idle : s.outstanding = 0) (saved : s.unsaved = ∅) :
    SafeLog area base floor (fun state => Calm area base state.1) (commit s.lh) s regs := by
  rw [commit]
  split
  next some =>
    have nonempty : s.lh ≠ [] := List.ne_nil_of_length_pos some
    have up : s.booted = false → s.committed ++ [s.pending] = floor := by simp [running.booted]
    refine writeLog_safe shut room running.homes ?_ s.lh.length 0 s.disk s.view regs (by omega)
      (running.prepared saved)
    intro disk view regs copied
    have installed := running.committed room copied (view area.start) (encodeHead s.lh (view area.start))
    have written : Store.headWritten area { s with disk, view } = _ := headWritten_nonempty nonempty
    refine writeHead_safe (copied.cut shut) ?_ ?_ <;> rw [written]
    · exact ⟨⟨s.lh, installed.logged⟩, ⟨shut.1, up⟩⟩
    · intro regs
      refine install_safe _ ⟨shut.1, up⟩ installed ?_
      intro disk view regs settled seen
      refine safe_single ⟨⟨[], settled.logged⟩, ⟨shut.1, up⟩⟩ rfl (.done ?_)
      exact ⟨running.booted, rfl, idle, saved, rfl, rfl, settled, seen⟩
  next none =>
    have empty : s.lh = [] := List.eq_nil_of_length_eq_zero (by omega)
    have nothing := running.nothing empty
    refine safe_single ⟨running.recoverable, shut⟩ rfl (.done ?_)
    refine ⟨running.booted, rfl, idle, saved, empty, nothing, running.settled, ?_⟩
    intro block home
    have seen := running.seen block home (by simp [saved])
    rwa [nothing] at seen

theorem recover_safe (down : s.booted = false) (kept : s.committed = floor)
    (idle : s.committing = false) (outstanding : s.outstanding = 0)
    (saved : s.unsaved = ∅) (pending : s.pending = [])
    (recoverable : Recoverable area base s) (same : s.view = s.disk) :
    SafeLog area base floor (fun state => Calm area base state.1) recoverFromLog s regs := by
  obtain ⟨lh, logged⟩ := recoverable
  have shut : Shut floor s := ⟨Or.inr down, fun _ => kept⟩
  have now : Cut area base floor s := ⟨⟨lh, logged⟩, shut⟩
  have installed : Installed area (replay s.committed base) lh 0 s.disk s.view := by
    rw [same]
    exact ⟨logged, logged.slots, logged.rest, by simp⟩
  refine safe_bread now rfl (safe_loadHead now rfl ?_)
  rw [show decodeHead (s.view area.start) = lh by rw [same, logged.header]]
  refine safe_brelse ⟨⟨lh, logged⟩, shut⟩ ?_
  refine install_safe { s with lh := lh } shut installed ?_
  intro disk view regs settled seen
  refine safe_single ⟨⟨[], settled.logged⟩, shut⟩ rfl (.done ?_)
  exact ⟨rfl, idle, outstanding, saved, rfl, pending, settled, seen⟩

end Whole

end OsLabs.Log
