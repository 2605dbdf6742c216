import SqliteRs.Pager

/-!
What a pager reads. The view is the reading precedence without the cache: edits,
committed frames, main file. The cache is coherent when it agrees with the main
file, and then reading through it is the view. The operations of a transaction
change nothing but the edits and the cache, and keep both sound.
-/

namespace SqliteRs

open SqliteRs.Action PageCache

open ByteFile

def mainPage (world : World) (source : Handle) (pageSize pageNum : UInt32) :
    Except PageError Bytes :=
  if pageNum = 0 then .error .invalidPageNumber
  else
    let buf := readAt (world.inode source) (pageOffset pageSize pageNum) pageSize.toNat
    if buf.length = pageSize.toNat then .ok buf
    else .error (.shortRead pageNum pageSize.toNat buf.length)

def filePage (bytes : Bytes) (pageSize pageNum : UInt32) : Except PageError Bytes :=
  if pageNum = 0 then .error .invalidPageNumber
  else
    let buf := readAt bytes (pageOffset pageSize pageNum) pageSize.toNat
    if buf.length = pageSize.toNat then .ok buf
    else .error (.shortRead pageNum pageSize.toNat buf.length)

theorem mainPage_eq_filePage (world : World) (pageSize pageNum : UInt32) (bytes : Bytes)
    (found : world.content .main = some bytes) :
    mainPage world (world.handle .main) pageSize pageNum = filePage bytes pageSize pageNum := by
  rw [mainPage, filePage, ((world.content_eq_some_iff bytes .main).mp found).2]

theorem filePage_eq_ok_iff (bytes : Bytes) (pageSize pageNum : UInt32) (page : Bytes) :
    filePage bytes pageSize pageNum = .ok page ↔
      pageNum ≠ 0 ∧ readAt bytes (pageOffset pageSize pageNum) pageSize.toNat = page ∧
        page.length = pageSize.toNat := by
  rw [filePage]
  split
  · rename_i zero
    simp [zero]
  rename_i some
  simp only
  split
  · rename_i whole
    constructor
    · intro same
      cases same
      exact ⟨some, rfl, whole⟩
    · rintro ⟨_, rfl, _⟩
      rfl
  · rename_i short
    constructor
    · intro same
      cases same
    · rintro ⟨_, rfl, whole⟩
      exact absurd whole short

theorem exec_readPageAt {State : Type} (proc : Nat) (src : Handle)
    (pageSize pageNum : UInt32) (state : State) (world : World) :
    (readPageAt src pageSize pageNum).exec (unixVfs proc) state world =
      ⟨world, state, mainPage world src pageSize pageNum⟩ := by
  simp only [readPageAt, mainPage]
  split
  · rfl
  simp only [exec_bind, exec_readAt]
  split
  · rfl
  · rfl

theorem mainPage_length (world : World) (src : Handle) (pageSize pageNum : UInt32)
    (page : Bytes) (read : mainPage world src pageSize pageNum = .ok page) :
    page.length = pageSize.toNat := by
  simp only [mainPage] at read
  split at read
  · cases read
  split at read
  · cases read
    assumption
  · cases read

theorem mainPage_samePath {before after : World} (same : World.SamePath .main before after)
    (src : Handle) (onMain : src.path = .main) (pageSize pageNum : UInt32) :
    mainPage after src pageSize pageNum = mainPage before src pageSize pageNum := by
  simp [mainPage, same.inode_of src onMain]

namespace Pager

def below (pager : Pager) (world : World) (pageNum : UInt32) : Except PageError Bytes :=
  match pager.walPages.get pageNum with
  | some page => .ok page
  | none => mainPage world pager.source pager.pageSize pageNum

def view (pager : Pager) (world : World) (pageNum : UInt32) : Except PageError Bytes :=
  match pager.dirty.get pageNum with
  | some page => .ok page
  | none => pager.below world pageNum

theorem below_eq (pager : Pager) (world : World) (pageNum : UInt32) : pager.below world pageNum =
      (pager.walPages.get pageNum).elim (mainPage world pager.source pager.pageSize pageNum) .ok := by
  cases found : pager.walPages.get pageNum <;> simp [below, found]

theorem view_eq (pager : Pager) (world : World) (pageNum : UInt32) : pager.view world pageNum =
      (pager.dirty.get pageNum).elim (pager.below world pageNum) .ok := by
  cases found : pager.dirty.get pageNum <;> simp [view, found]

/-- The cache agrees with the main file, and every page held in memory is a whole page. -/
structure Sound (world : World) (pager : Pager) : Prop where
  cache : pager.pageCache.Within
    fun pageNum => (mainPage world pager.source pager.pageSize pageNum).toOption
  dirtySized : ∀ pageNum page, pager.dirty.get pageNum = some page →
    page.length = pager.pageSize.toNat
  walSized : ∀ pageNum page, pager.walPages.get pageNum = some page →
    page.length = pager.pageSize.toNat

def SameBase (before after : Pager) : Prop :=
  after = { before with dirty := after.dirty, pageCache := after.pageCache }

theorem SameBase.refl (pager : Pager) : SameBase pager pager := rfl

theorem SameBase.trans {first second third : Pager} (left : SameBase first second)
    (right : SameBase second third) : SameBase first third := by
  rw [SameBase] at *
  rw [right, left]

theorem sameBase_edits (pager : Pager) (dirty : PageMap) (pageCache : PageCache) :
    SameBase pager { pager with dirty, pageCache } := rfl

variable {after before : World}

theorem view_samePath (same : World.SamePath .main before after)
    (pager : Pager) (onMain : pager.source.path = .main) (pageNum : UInt32) :
    pager.view after pageNum = pager.view before pageNum := by
  simp [view, below, mainPage_samePath same pager.source onMain]

theorem sound_samePath (same : World.SamePath .main before after)
    {pager : Pager} (onMain : pager.source.path = .main) (sound : pager.Sound before) :
    pager.Sound after := by
  refine ⟨?_, sound.dirtySized, sound.walSized⟩
  simp only [mainPage_samePath same pager.source onMain]
  exact sound.cache

section

variable {pager : Pager} {world : World} (sound : Sound world pager)
include sound

theorem below_length (pageNum : UInt32) (page : Bytes) (read : pager.below world pageNum = .ok page) :
    page.length = pager.pageSize.toNat := by
  simp only [below] at read
  split at read
  · rename_i committed
    cases read
    exact sound.walSized pageNum page committed
  · exact mainPage_length _ _ _ _ _ read

theorem Sound.withCache (cache : PageCache)
    (within : cache.Within
      fun pageNum => (mainPage world pager.source pager.pageSize pageNum).toOption) :
    Sound world { pager with pageCache := cache } :=
  ⟨within, sound.dirtySized, sound.walSized⟩

theorem Sound.withDirty
    (pageNum : UInt32) (page : Bytes) (sized : page.length = pager.pageSize.toNat) :
    Sound world { pager with dirty := pager.dirty.insert pageNum page } := by
  refine ⟨sound.cache, ?_, sound.walSized⟩
  intro wanted content found
  simp only [OrderedMap.get_insert] at found
  split at found
  · cases found
    exact sized
  · exact sound.dirtySized wanted content found

end

section Reading

variable (proc : Nat) (world : World) (pager : Pager)

theorem exec_readCached (sound : Sound world pager) (pageNum : UInt32) :
    ∃ cache, (readCached pageNum).exec (unixVfs proc) pager world =
        ⟨world, { pager with pageCache := cache }, mainPage world pager.source pager.pageSize pageNum⟩ ∧
      Sound world { pager with pageCache := cache } := by
  have touched := get_fst_within sound.cache pageNum
  have lookup := get_snd pager.pageCache pageNum
  simp only [readCached, exec_bind, exec_get]
  cases hit : (pager.pageCache.get pageNum).2 with
  | some page =>
    refine ⟨(pager.pageCache.get pageNum).1, ?_, sound.withCache _ touched⟩
    rw [hit] at lookup
    cases entry : pager.pageCache.entries.get pageNum with
    | none => simp [entry] at lookup
    | some stored =>
      simp only [entry, Option.map_some] at lookup
      have agrees := sound.cache pageNum stored.1 stored.2 entry
      cases read : mainPage world pager.source pager.pageSize pageNum with
      | error error => simp [read, Except.toOption] at agrees
      | ok content =>
        simp only [read] at agrees
        rw [lookup, ← agrees]
        rfl
  | none =>
    have evicted := evictOneIfFull_within touched
    simp only [exec_bind, exec_modify, exec_readPageAt]
    cases read : mainPage world pager.source pager.pageSize pageNum with
    | error error =>
      exact ⟨_, rfl, sound.withCache _ evicted⟩
    | ok content =>
      refine ⟨_, rfl, sound.withCache _ ?_⟩
      exact insert_within evicted pageNum content (by simp [read, Except.toOption])

theorem exec_readPage (sound : Sound world pager) (pageNum : UInt32) :
    ∃ cache, (readPage pageNum).exec (unixVfs proc) pager world =
        ⟨world, { pager with pageCache := cache }, pager.view world pageNum⟩ ∧
      Sound world { pager with pageCache := cache } := by
  simp only [readPage, exec_bind, exec_get, view, below]
  cases pager.dirty.get pageNum with
  | some page => exact ⟨pager.pageCache, rfl, sound⟩
  | none =>
    cases pager.walPages.get pageNum with
    | some page => exact ⟨pager.pageCache, rfl, sound⟩
    | none => exact exec_readCached proc world pager sound pageNum

theorem exec_readBelow (pageNum : UInt32) : (readBelow pageNum).exec (unixVfs proc) pager world =
      ⟨world, pager, (pager.below world pageNum).mapError .page⟩ := by
  simp only [readBelow, exec_bind, exec_get, below]
  cases pager.walPages.get pageNum with
  | some page => rfl
  | none => simp only [exec_free, exec_readPageAt]

end Reading

/-- An operation that leaves the files alone and changes no more than edits and cache. -/
def Quiet {Error Result : Type} (action : Vfs Pager Error Result) : Prop :=
  ∀ proc world pager, Sound world pager →
    ∃ after result, action.exec (unixVfs proc) pager world = ⟨world, after, result⟩ ∧
      SameBase pager after ∧ Sound world after

namespace Quiet

variable {Error Inner Result Next : Type}

theorem pure (res : Result) : Quiet (Pure.pure res : Vfs Pager Error Result) :=
  fun _ _ pager sound => ⟨pager, .ok res, rfl, .refl pager, sound⟩

theorem check (value : Except Error Result) : Quiet (Action.check value : Vfs Pager Error Result) :=
  fun _ _ pager sound => ⟨pager, value, rfl, .refl pager, sound⟩

theorem get : Quiet (Action.get : Vfs Pager Error Pager) :=
  fun _ _ pager sound => ⟨pager, .ok pager, rfl, .refl pager, sound⟩

variable {act : Vfs Pager Error Result}

theorem bind {next : Result → Vfs Pager Error Next}
    (first : Quiet act) (rest : ∀ res, Quiet (next res)) : Quiet (act >>= next) := by
  intro proc world pager sound
  obtain ⟨middle, res, ran, base, middleSound⟩ := first proc world pager sound
  cases res with
  | error error =>
    exact ⟨middle, .error error, exec_bind_of_error _ _ _ _ _ _ _ _ ran, base, middleSound⟩
  | ok value =>
    obtain ⟨after, final, finished, later, afterSound⟩ :=
      rest value proc world middle middleSound
    refine ⟨after, final, ?_, base.trans later, afterSound⟩
    rw [exec_bind_of_ok _ _ _ _ _ _ _ _ ran]
    exact finished

theorem attempt (first : Quiet act) : Quiet (Action.attempt act : Vfs Pager Inner _) := by
  intro proc world pager sound
  obtain ⟨after, res, ran, base, afterSound⟩ := first proc world pager sound
  exact ⟨after, .ok res, by rw [exec_attempt, ran], base, afterSound⟩

end Quiet

theorem readPageM_quiet (pageNum : UInt32) : Quiet (readPageM pageNum) := by
  intro proc world pager sound
  obtain ⟨cache, ran, after⟩ := exec_readPage proc world pager sound pageNum
  exact ⟨{ pager with pageCache := cache }, _, by rw [readPageM, exec_zoom, id, ran],
    sameBase_edits pager pager.dirty cache, after⟩

theorem exec_getPageMut (proc : Nat) (world : World) (pager : Pager)
    (sound : Sound world pager) (pageNum : UInt32) :
    ∃ after, (getPageMut pageNum).exec (unixVfs proc) pager world =
        ⟨world, after, (pager.view world pageNum).mapError .page⟩ ∧
      SameBase pager after ∧ Sound world after := by
  have invalidated := sound.withCache _ (invalidate_within sound.cache pageNum)
  simp only [getPageMut, exec_bind, exec_modify, exec_get, view]
  cases pager.dirty.get pageNum with
  | some page => exact ⟨_, rfl, sameBase_edits pager _ _, invalidated⟩
  | none =>
    simp only [exec_bind, exec_readBelow]
    cases read : pager.below world pageNum with
    | error error =>
      refine ⟨_, ?_, sameBase_edits pager _ _, invalidated⟩
      have same : below { pager with pageCache := pager.pageCache.invalidate pageNum } world
          pageNum = .error error := read
      simp [same, Except.mapError]
    | ok page =>
      refine ⟨_, ?_, sameBase_edits pager _ _, invalidated.withDirty pageNum page
        (below_length sound pageNum page read)⟩
      have same : below { pager with pageCache := pager.pageCache.invalidate pageNum } world
          pageNum = .ok page := read
      simp only [same]
      rfl

theorem view_length {pager : Pager} {world : World} (sound : Sound world pager)
    (pageNum : UInt32) (page : Bytes) (read : pager.view world pageNum = .ok page) :
    page.length = pager.pageSize.toNat := by
  simp only [view] at read
  split at read
  · rename_i edited
    cases read
    exact sound.dirtySized pageNum page edited
  · exact below_length sound pageNum page read

theorem editPage_quiet (pageNum : UInt32) (edit : Bytes → Bytes × Except PagerError Unit)
    (keeps : ∀ page, (edit page).1.length = page.length) : Quiet (editPage pageNum edit) := by
  intro proc world pager sound
  obtain ⟨held, ran, base, heldSound⟩ := exec_getPageMut proc world pager sound pageNum
  simp only [editPage, exec_bind, ran]
  cases read : pager.view world pageNum with
  | error error => exact ⟨held, .error (.page error), rfl, base, heldSound⟩
  | ok page =>
    have sized : (edit page).1.length = held.pageSize.toNat := by
      rw [keeps, view_length sound pageNum page read, base]
    exact ⟨_, _, rfl, base.trans (sameBase_edits held _ _), heldSound.withDirty pageNum _ sized⟩

theorem patchPage_quiet (pageNum : UInt32) (edit : Bytes → Bytes × Except FreelistError Unit)
    (keeps : ∀ page, (edit page).1.length = page.length) : Quiet (patchPage pageNum edit) :=
  editPage_quiet pageNum _ keeps

theorem length_writeBeU32 (off : Nat) (value : UInt32) (buf : Bytes) :
    (writeBeU32 buf off value).1.length = buf.length := by
  simp only [writeBeU32]
  split
  · rename_i inside
    rw [length_writeAt _ _ _ (be32Bytes_ne_nil value), length_be32Bytes]
    omega
  · rfl

theorem length_writeLeaves (leaves : List UInt32) (index : Nat) (buf : Bytes) :
    (TrunkPage.writeLeaves index leaves buf).1.length = buf.length := by
  induction leaves generalizing index buf with
  | nil => rfl
  | cons leaf rest ih =>
    have written := length_writeBeU32 (8 + index * 4) leaf buf
    simp only [TrunkPage.writeLeaves]
    split
    · rename_i after error same
      rw [same] at written
      exact written
    · rename_i after same
      rw [same] at written
      exact (ih (index + 1) after).trans written

theorem length_trunk_write (trunk : TrunkPage) (buf : Bytes) :
    (trunk.write buf).1.length = buf.length := by
  have first := length_writeBeU32 0 trunk.nextTrunk buf
  simp only [TrunkPage.write]
  split
  · rename_i one error same
    rw [same] at first
    exact first
  rename_i one same
  rw [same] at first
  have second := length_writeBeU32 4 (UInt32.ofNat trunk.leaves.length) one
  split
  · rename_i two error same
    rw [same] at second
    exact second.trans first
  rename_i two same
  rw [same] at second
  have third := length_writeLeaves trunk.leaves 0 two
  split
  · rename_i three error same
    rw [same] at third
    exact third.trans (second.trans first)
  rename_i three same
  rw [same] at third
  refine Eq.trans ?_ (third.trans (second.trans first))
  simp only [TrunkPage.fillTail, List.length_append, List.length_take, length_zeros]
  omega

theorem headerField_quiet (page1 : Bytes) (off : Nat) : Quiet (headerField page1 off) :=
  Quiet.check _

theorem parseTrunk_quiet (buf : Bytes) : Quiet (parseTrunk buf) := Quiet.check _

theorem insertZeros_quiet (pageNum : UInt32) :
    Quiet (Action.modify fun pager : Pager =>
      { pager with dirty := pager.dirty.insert pageNum (zeros pager.pageSize.toNat) } :
      PagerM Unit) := by
  intro proc world pager sound
  exact ⟨_, .ok (), rfl, sameBase_edits pager _ _, sound.withDirty pageNum _ (length_zeros _)⟩

theorem popTrunk_quiet (trunkPage : UInt32) (trunk : TrunkPage) : Quiet (popTrunk trunkPage trunk) := by
  simp only [popTrunk]
  cases trunk.leaves.getLast? with
  | none => exact Quiet.pure _
  | some leaf =>
    exact Quiet.bind (patchPage_quiet trunkPage _ (length_trunk_write _)) fun _ => Quiet.pure _

theorem allocatePage_quiet : Quiet allocatePage := by
  refine Quiet.bind (readPageM_quiet 1) fun hdr => ?_
  refine Quiet.bind (headerField_quiet hdr _) fun pageCount => ?_
  refine Quiet.bind (headerField_quiet hdr _) fun trunkPage => ?_
  refine Quiet.bind (headerField_quiet hdr _) fun freeCount => ?_
  by_cases extend : trunkPage = 0
  · simp only [extend]
    refine Quiet.bind (insertZeros_quiet _) fun _ => ?_
    exact Quiet.bind (patchPage_quiet 1 _ (length_writeBeU32 _ _)) fun _ => Quiet.pure _
  simp only [extend]
  refine Quiet.bind (readPageM_quiet trunkPage) fun trunkBuf => ?_
  refine Quiet.bind (parseTrunk_quiet trunkBuf) fun trunk => ?_
  refine Quiet.bind (popTrunk_quiet trunkPage trunk) fun taken => ?_
  refine Quiet.bind (patchPage_quiet 1 _ (length_writeBeU32 _ _)) fun _ => ?_
  exact Quiet.bind (patchPage_quiet 1 _ (length_writeBeU32 _ _)) fun _ => Quiet.pure _

theorem pushTrunk_quiet (pageNum trunkPage : UInt32) : Quiet (pushTrunk pageNum trunkPage) := by
  by_cases first : trunkPage ≠ 0
  · simp only [pushTrunk, first, ne_eq]
    refine Quiet.bind (readPageM_quiet trunkPage) fun trunkBuf => ?_
    refine Quiet.bind (parseTrunk_quiet trunkBuf) fun trunk => ?_
    refine Quiet.bind Quiet.get fun pager => ?_
    split
    · exact Quiet.bind (patchPage_quiet trunkPage _ (length_trunk_write _)) fun _ => Quiet.pure _
    · exact Quiet.bind (patchPage_quiet pageNum _ (length_trunk_write _)) fun _ => Quiet.pure _
  · simp only [pushTrunk, first]
    exact Quiet.bind (patchPage_quiet pageNum _ (length_trunk_write _)) fun _ => Quiet.pure _

theorem deallocatePage_quiet (pageNum : UInt32) : Quiet (deallocatePage pageNum) := by
  refine Quiet.bind (readPageM_quiet 1) fun hdr => ?_
  refine Quiet.bind (headerField_quiet hdr _) fun trunkPage => ?_
  refine Quiet.bind (headerField_quiet hdr _) fun freeCount => ?_
  refine Quiet.bind (pushTrunk_quiet pageNum trunkPage) fun newTrunkPage => ?_
  refine Quiet.bind (patchPage_quiet 1 _ (length_writeBeU32 _ _)) fun _ => ?_
  exact patchPage_quiet 1 _ (length_writeBeU32 _ _)

theorem pageCall_quiet (call : PageCall) : Quiet (pageCall call) := by
  cases call with
  | read pageNum => exact readPageM_quiet pageNum
  | edit pageNum edit => exact editPage_quiet pageNum _ edit.keepsLength
  | allocate => exact allocatePage_quiet
  | deallocate pageNum => exact deallocatePage_quiet pageNum

theorem perform_quiet (transaction : Transaction) : Quiet (perform transaction) := by
  induction transaction with
  | done res => exact Quiet.pure _
  | call request resume ih =>
    exact Quiet.bind (Quiet.attempt (pageCall_quiet request)) fun reply => ih reply

end Pager

end SqliteRs
