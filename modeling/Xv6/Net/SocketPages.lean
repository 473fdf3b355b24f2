import Xv6.Net.SocketMemory

/-! # Pages of sockets

Every socket belongs to one open file, and its page goes back to the allocator when the
file is closed. A second connection with the same addresses is the exception: its page is
freed, and used and freed again. -/

namespace Xv6

open Foundation Function List Pages Contents Option

/-- An open file for the socket in a page. -/
structure SockFile.Is (file : SockFile) (page : Page) : Prop where
  opened : file.ref ≠ 0
  type : file.type = .sock
  sock : file.sock = page

/-- The open files for the sockets of a list. -/
structure Opened (files : Fin nFile → SockFile) (list : List Page) : Prop where
  mem_list : ∀ f page, (files f).Is page → page ∈ list
  owner : ∀ page ∈ list, ∃ f, (files f).Is page
  once : ∀ f g page, (files f).Is page → (files g).Is page → f = g
  closed : ∀ f, (files f).ref = 0 → (files f).type = .none

namespace Opened

variable {files later : Fin nFile → SockFile} {list before rest : List Page} {page : Page}
  {f : Fin nFile} {file : SockFile}

section

variable (opened : Opened files list)
include opened

theorem congr (same : ∀ g page, (later g).Is page ↔ (files g).Is page)
    (closed : ∀ g, (later g).ref = 0 → (later g).type = .none) : Opened later list where
  mem_list g page is := opened.mem_list g page ((same g page).mp is)
  owner page member := by
    rcases opened.owner page member with ⟨g, is⟩
    exact ⟨g, (same g page).mpr is⟩
  once g h page isG isH := opened.once g h page ((same g page).mp isG) ((same h page).mp isH)
  closed := closed

theorem closed_update (here : file.ref = 0 → file.type = .none)
    (g : Fin nFile) : (update files f file g).ref = 0 → (update files f file g).type = .none := by
  by_cases isF : g = f
  · rwa [isF, update_self]
  · rw [update_of_ne isF]
    exact opened.closed g

theorem setRef {ref : Nat} (before : (files f).ref ≠ 0)
    (after : ref ≠ 0) : Opened (update files f { files f with ref := ref }) list := by
  apply opened.congr
  · intro g page
    by_cases isF : g = f
    · rw [isF, update_self]
      constructor
      · intro is
        exact ⟨before, is.type, is.sock⟩
      · intro is
        exact ⟨after, is.type, is.sock⟩
    · rw [update_of_ne isF]
  · exact opened.closed_update fun zero => absurd zero after

theorem setOther (before : ∀ page, ¬(files f).Is page) (after : file.type ≠ .sock)
    (closed : file.ref = 0 → file.type = .none) : Opened (update files f file) list := by
  apply opened.congr
  · intro g page
    by_cases isF : g = f
    · rw [isF, update_self]
      constructor
      · intro is
        exact absurd is.type after
      · intro is
        exact absurd is (before page)
    · rw [update_of_ne isF]
  · exact opened.closed_update closed

theorem add (before : ∀ page, ¬(files f).Is page) (notIn : page ∉ list) (is : file.Is page) :
    Opened (update files f file) (page :: list) := by
  have here : ∀ g o, (update files f file g).Is o → g = f ∧ o = page ∨ g ≠ f ∧ (files g).Is o := by
    intro g o isO
    by_cases isF : g = f
    · rw [isF, update_self] at isO
      exact .inl ⟨isF, isO.sock.symm.trans is.sock⟩
    · rw [update_of_ne isF] at isO
      exact .inr ⟨isF, isO⟩
  constructor
  · intro g o isO
    rcases here g o isO with ⟨_, isPage⟩ | ⟨_, wasO⟩
    · rw [isPage]
      exact mem_cons_self
    · exact mem_cons_of_mem _ (opened.mem_list g o wasO)
  · intro o member
    rcases mem_cons.mp member with isPage | inList
    · exact ⟨f, by rw [update_self, isPage]; exact is⟩
    rcases opened.owner o inList with ⟨g, isO⟩
    have isF : g ≠ f := by
      intro isF
      exact before o (isF ▸ isO)
    exact ⟨g, by rw [update_of_ne isF]; exact isO⟩
  · intro g h o isG isH
    rcases here g o isG with ⟨gF, gPage⟩ | ⟨gF, wasG⟩
    · rcases here h o isH with ⟨hF, _⟩ | ⟨_, wasH⟩
      · rw [gF, hF]
      · exact absurd (gPage ▸ opened.mem_list h o wasH) notIn
    rcases here h o isH with ⟨_, hPage⟩ | ⟨_, wasH⟩
    · exact absurd (hPage ▸ opened.mem_list g o wasG) notIn
    · exact opened.once g h o wasG wasH
  · exact opened.closed_update fun zero => absurd zero is.opened

end

theorem remove (opened : Opened files (before ++ page :: rest))
    (nodup : (before ++ page :: rest).Nodup) (is : (files f).Is page) (ref : file.ref = 0)
    (type : file.type = .none) : Opened (update files f file) (before ++ rest) := by
  have closed : ∀ page, ¬file.Is page := fun _ is => is.opened ref
  have notIn := (nodup_cons.mp (nodup_middle.mp nodup)).1
  constructor
  · intro g o isOther
    by_cases isF : g = f
    · rw [isF, update_self] at isOther
      exact absurd isOther (closed o)
    rw [update_of_ne isF] at isOther
    have member := opened.mem_list g o isOther
    have ne : o ≠ page := by
      intro same
      exact isF (opened.once g f page (same ▸ isOther) is)
    simp only [mem_append, mem_cons] at member ⊢
    rcases member with left | isPage | right
    · exact .inl left
    · exact absurd isPage ne
    · exact .inr right
  · intro o member
    have before' : o ∈ before ++ page :: rest := by
      simp only [mem_append, mem_cons] at member ⊢
      rcases member with left | right
      · exact .inl left
      · exact .inr (.inr right)
    rcases opened.owner o before' with ⟨g, isOther⟩
    have isF : g ≠ f := by
      intro isF
      rw [isF] at isOther
      have same : page = o := is.sock.symm.trans isOther.sock
      exact notIn (same ▸ member)
    exact ⟨g, by rw [update_of_ne isF]; exact isOther⟩
  · intro g h o isG isH
    by_cases gF : g = f
    · rw [gF, update_self] at isG
      exact absurd isG (closed o)
    by_cases hF : h = f
    · rw [hF, update_self] at isH
      exact absurd isH (closed o)
    rw [update_of_ne gF] at isG
    rw [update_of_ne hF] at isH
    exact opened.once g h o isG isH
  · exact opened.closed_update fun _ => type

end Opened

namespace SockState

/-- What holds between calls. -/
structure Inv (s : SockState) (list : List Page) (queue : Page → List Page) : Prop where
  memory : s.Memory list queue none
  complete : ∀ page, (s.pages page).isSock = true → page ∈ list
  opened : Opened s.files list

variable {s after : SockState} {list before rest : List Page} {queue : Page → List Page}
  {page : Page} {si : Sock} {f : Fin nFile} {conn : Connection}

/-! ## Closing -/

theorem Memory.sockclose (mem : s.Memory list queue none)
    (split : list = before ++ page :: rest) : ∃ after, s.sockclose page = .ok after ∧
    after.Memory (before ++ rest) (update queue page []) none ∧ after.files = s.files ∧
    after.pages page = .free ∧ ∀ o, o ≠ page → (after.pages o).isSock = (s.pages o).isSock := by
  have member : page ∈ list := by
    rw [split]
    simp
  have nodup := mem.linked.nodup
  rw [split] at nodup
  have outside : page ∉ before ++ rest := by
    have notIn := nodup_middle.mp nodup
    exact (nodup_cons.mp notIn).1
  rcases exists_of_isSock (mem.inList page member) with ⟨si, h⟩
  rcases mem.unlink split h with ⟨unlinked, isUnlinked, mem, files, socks⟩
  have stillSock : (unlinked.pages page).isSock = true := by
    rw [socks, h]
    rfl
  rcases exists_of_isSock stillSock with ⟨si', holds'⟩
  rcases mem.drain holds' (Nat.lt_succ_of_le (mem.queue_length_le holds'))
    with ⟨drained, isDrained, mem, drainedFiles, _, drainedSocks⟩
  have lastSock : (drained.pages page).isSock = true := by rw [drainedSocks, stillSock]
  rcases exists_of_isSock lastSock with ⟨si'', holds''⟩
  have notMbuf : ∀ packet, drained.pages page ≠ .mbuf packet := by
    intro packet isMbuf
    rw [holds''] at isMbuf
    cases isMbuf
  have used : drained.pages page ≠ .free := by
    rw [holds'']
    rintro ⟨⟩
  have below : page < nPages := by
    apply mem.lt_nPages
    rw [holds'']
    rintro ⟨⟩
  have freed := mem.kfree used below outside (update_self _ _ _)
    (mem.unqueued notMbuf) (fun _ _ => Iff.rfl) (some_ne_none page).symm
  refine ⟨_, ?_, freed.2, drainedFiles.trans files, set_self _ _ _, ?_⟩
  · rw [SockState.sockclose, isUnlinked]
    dsimp only [bind, Except.bind]
    rw [isDrained]
    exact freed.1
  · intro o ne
    rw [← socks, ← drainedSocks]
    exact congrArg isSock (set_ne _ ne _)

theorem Inv.fileclose (inv : s.Inv list queue) (opened : (s.files f).ref ≠ 0) :
    ∃ after, s.fileclose f = .ok after ∧ (∃ list queue, after.Inv list queue) ∧
    ((s.files f).ref = 1 → ∀ page, (s.files f).Is page → after.pages page = .free) := by
  rw [SockState.fileclose]
  dsimp only
  rw [if_neg (by omega)]
  by_cases shared : 1 < (s.files f).ref
  · rw [if_pos shared]
    refine ⟨_, rfl, ⟨list, queue, ?_⟩, ?_⟩
    · exact ⟨{ inv.memory with }, inv.complete, inv.opened.setRef opened (by omega)⟩
    · intro last
      omega
  · rw [if_neg shared]
    split
    · next isSock =>
      have is : (s.files f).Is (s.files f).sock := ⟨opened, isSock, rfl⟩
      rcases append_of_mem (inv.opened.mem_list f _ is) with ⟨before, rest, split⟩
      have mem : (s.setFile f { s.files f with ref := 0, type := .none }).Memory
        list queue none := { inv.memory with }
      rcases mem.sockclose split with ⟨after, closed, memoryAfter, files, free, socks⟩
      refine ⟨after, closed, ⟨_, _, memoryAfter, ?_, ?_⟩, ?_⟩
      · intro o isO
        have ne : o ≠ (s.files f).sock := by
          intro same
          rw [same, free] at isO
          cases isO
        rw [socks o ne] at isO
        have member := inv.complete o isO
        rw [split] at member
        simp only [mem_append, mem_cons] at member ⊢
        rcases member with left | isPage | right
        · exact .inl left
        · exact absurd isPage ne
        · exact .inr right
      · rw [files]
        have openedList := inv.opened
        have nodup := inv.memory.linked.nodup
        rw [split] at openedList nodup
        exact openedList.remove nodup is rfl rfl
      · intro _ page isPage
        rwa [← isPage.sock]
    · next notSock =>
      refine ⟨_, rfl, ⟨list, queue, { inv.memory with }, inv.complete, ?_⟩, ?_⟩
      · apply inv.opened.setOther
        · intro page is
          exact notSock is.type
        · rintro ⟨⟩
        · intro _
          rfl
      · intro _ page is
        exact absurd is.type notSock

/-! ## Opening -/

/-- There is a socket with the connection. -/
def Connected (s : SockState) (conn : Connection) : Prop :=
  ∃ page, (s.pages page).connection = some conn

/-- `sockalloc` gets as far as the list, which has the connection already. -/
def Duplicate (s : SockState) (conn : Connection) : Prop :=
  s.freeFile ≠ none ∧ s.freelist ≠ [] ∧ s.Connected conn

theorem isSock_of_connection {contents : Contents}
    (isSome : contents.connection = some conn) : contents.isSock = true := by
  cases contents with
  | sock si => rfl
  | free | other | mbuf m => cases isSome

theorem ref_of_freeFile (hit : s.freeFile = some f) : (s.files f).ref = 0 := by
  have h := find?_some hit
  simpa using h

/-- The file and the page that `sockalloc` sets up before it looks at the list. -/
structure Prepared (s prepared : SockState) (f : Fin nFile) (page : Page)
    (conn : Connection) (list : List Page) (queue : Page → List Page) : Prop where
  memory : prepared.Memory list queue none
  wasFree : s.pages page = .free
  pages : prepared.pages =
    s.pages.set page (.sock ⟨none, conn, none, none⟩)
  sockets : prepared.sockets = s.sockets
  files : prepared.files = update s.files f
    { ref := 1, type := .sock, sock := page }

theorem Prepared.notIn {prep : SockState} (ready : Prepared s prep f page conn list queue)
    (inv : s.Inv list queue) : page ∉ list := by
  intro member
  have isSock := inv.memory.inList page member
  rw [ready.wasFree] at isSock
  cases isSock

theorem Inv.sockalloc_cases (inv : s.Inv list queue) (conn : Connection) :
    (s.sockalloc conn = .ok (false, s) ∧ (s.freeFile = none ∨ s.freelist = [])) ∨
    ∃ f page prepared, Prepared s prepared f page conn list queue ∧
      s.freeFile = some f ∧ s.freelist ≠ [] ∧ s.sockalloc conn = (do
        match ← findSock prepared.pages conn nPages prepared.sockets with
        | some _ => do
            let s ← prepared.kfree page
            let s ← s.fileclose f
            .ok (false, s)
        | none => do
            let si ← prepared.pages.sock page
            .ok (true, { prepared.setPage page (.sock { si with next := prepared.sockets }) with
              sockets := some page })) := by
  rw [sockalloc, filealloc]
  cases isFree : s.freeFile with
  | none => exact .inl ⟨rfl, .inl rfl⟩
  | some f =>
    have zero := ref_of_freeFile isFree
    have none_ := inv.opened.closed f zero
    have wasClosed : s.files f =
        { ref := 0, type := .none, sock := (s.files f).sock } := by
      rw [← zero, ← none_]
    dsimp only [Option.map]
    generalize isReserved : s.setFile f { s.files f with ref := 1 } = reserved
    have reservedFile : reserved.files f = { s.files f with ref := 1 } := by
      rw [← isReserved]
      exact update_self _ _ _
    have mem : reserved.Memory list queue none := by
      rw [← isReserved]
      exact { inv.memory with }
    cases took : reserved.kalloc (.sock ⟨none, conn, none, none⟩) with
    | none =>
      refine .inl ⟨?_, .inr ?_⟩
      · have closed : reserved.fileclose f = .ok s := by
          rw [SockState.fileclose, reservedFile, none_, ← isReserved]
          dsimp only
          rw [if_neg (by decide), if_neg (by decide), setFile, setFile]
          dsimp only
          rw [update_idem, ← wasClosed, update_eq_self]
        rw [closed]
        rfl
      · rw [kalloc] at took
        split at took
        · next empty =>
          rwa [← isReserved] at empty
        · cases took
    | some out =>
      rcases out with ⟨page, taken⟩
      have fresh : ∀ si, Contents.sock ⟨none, conn, none, none⟩ = .sock si →
          si.head = none := by
        intro si eq
        cases eq
        rfl
      have here : (none : Option Page) = some page ↔
          ∃ packet, Contents.sock ⟨none, conn, none, none⟩ = .mbuf packet := by
        simp
      rcases mem.kalloc fresh (by simp) took (fun _ _ => Iff.rfl) here
        with ⟨memoryTaken, wasFree, pages, sockets, files, freelist⟩
      refine .inr ⟨f, page, taken.setFile f { taken.files f with type := .sock, sock := page },
        ⟨{ memoryTaken with }, ?_, ?_, ?_, ?_⟩, rfl, ?_, rfl⟩
      · rwa [← isReserved] at wasFree
      · rwa [← isReserved] at pages
      · rwa [← isReserved] at sockets
      · rw [setFile, files, reservedFile, ← isReserved, setFile]
        dsimp only
        rw [update_idem]
      rw [← isReserved] at freelist
      intro empty
      rw [show s.freelist = page :: taken.freelist from freelist] at empty
      cases empty

theorem Prepared.find {prepared : SockState}
    (ready : Prepared s prepared f page conn list queue) (inv : s.Inv list queue) :
    (findSock prepared.pages conn nPages prepared.sockets = .ok none ∧ ¬s.Connected conn) ∨
    ((∃ found, findSock prepared.pages conn nPages prepared.sockets = .ok (some found)) ∧
    s.Connected conn) := by
  have same : ∀ o, o ≠ page → prepared.pages o = s.pages o := by
    intro o ne
    rw [ready.pages]
    exact set_ne _ ne _
  have apart : ∀ o ∈ list, o ≠ page := by
    intro o member isPage
    exact ready.notIn inv (isPage ▸ member)
  rw [ready.memory.findSock]
  cases found : list.find? fun page => (prepared.pages page).connection = some conn with
  | none =>
    refine .inl ⟨rfl, ?_⟩
    rintro ⟨o, isConnection⟩
    have member := inv.complete o (isSock_of_connection isConnection)
    have missing := find?_eq_none.mp found o member
    rw [same o (apart o member)] at missing
    exact missing (decide_eq_true isConnection)
  | some o =>
    have member := mem_of_find?_eq_some found
    have h := find?_some found
    have isConnection : (prepared.pages o).connection = some conn := by simpa using h
    rw [same o (apart o member)] at isConnection
    exact .inr ⟨⟨o, rfl⟩, o, isConnection⟩

theorem Prepared.link {prep : SockState}
    (ready : Prepared s prep f page conn list queue) (inv : s.Inv list queue)
    (closed : (s.files f).ref = 0) : ∃ si, prep.pages page = .sock si ∧
      ({ prep.setPage page (.sock { si with next := prep.sockets }) with
        sockets := some page }).Inv (page :: list) queue := by
  have h : prep.pages page = .sock ⟨none, conn, none, none⟩ := by
    rw [ready.pages]
    exact set_self _ _ _
  have notIn := ready.notIn inv
  refine ⟨_, h, ready.memory.relink h rfl rfl ?_ ?_, ?_, ?_⟩
  · refine Linked.cons ?_ (congrArg Contents.next (set_self _ _ _))
    apply ready.memory.linked.congr
    intro o member
    have ne : o ≠ page := by
      intro isPage
      exact notIn (isPage ▸ member)
    exact congrArg Contents.next (set_ne _ ne _)
  · intro o member
    rcases mem_cons.mp member with isPage | inList
    · rw [isPage, h]
      rfl
    · exact ready.memory.inList o inList
  · intro o isSock
    by_cases isPage : o = page
    · rw [isPage]
      exact mem_cons_self
    refine mem_cons_of_mem _ (inv.complete o ?_)
    rw [← isSock]
    symm
    exact congrArg Contents.isSock ((set_ne _ isPage _).trans
      ((congrFun ready.pages o).trans (set_ne _ isPage _)))
  · change Opened prep.files _
    rw [ready.files]
    exact inv.opened.add (fun _ is => is.opened closed) notIn ⟨by simp, rfl, rfl⟩

theorem Inv.sockalloc (inv : s.Inv list queue)
    (notDup : ¬s.Duplicate conn) : ∃ ok after, s.sockalloc conn = .ok (ok, after) ∧
    (∃ list queue, after.Inv list queue) ∧ (ok = false → after = s) := by
  rcases inv.sockalloc_cases conn with ⟨failed, _⟩ | ⟨f, page, prep, ready, isFree, some_, run⟩
  · exact ⟨false, s, failed, ⟨list, queue, inv⟩, fun _ => rfl⟩
  rcases ready.find inv with ⟨lost, _⟩ | ⟨_, connected⟩
  · rcases ready.link inv (ref_of_freeFile isFree) with ⟨si, h, invAfter⟩
    refine ⟨true, _, ?_, ⟨_, _, invAfter⟩, fun never => by cases never⟩
    rw [run, lost]
    dsimp only [bind, Except.bind]
    rw [sock_eq h]
  · exact absurd ⟨by rw [isFree]; simp, some_, connected⟩ notDup

theorem Memory.unlink_absent {held : Option Page} (mem : s.Memory list queue held)
    {fuel : Nat} {walked todo : List Page} (split : list = walked ++ todo) (absent : page ∉ todo)
    (enough : todo.length < fuel) : s.unlink page fuel walked.getLast? = .ok s := by
  induction todo generalizing walked fuel with
  | nil =>
    cases fuel with
    | zero => cases enough
    | succ fuel =>
      rw [SockState.unlink, mem.deref split]
      rfl
  | cons here others ih =>
    cases fuel with
    | zero => cases enough
    | succ fuel =>
      have ne : here ≠ page := by
        intro same
        exact absent (same ▸ mem_cons_self)
      rw [SockState.unlink, mem.deref split]
      dsimp only [bind, Except.bind, head?]
      rw [if_neg ne]
      have moved : list = (walked ++ [here]) ++ others := by
        rw [split]
        simp
      have next := ih moved (fun member => absent (mem_cons_of_mem _ member))
        (Nat.lt_of_succ_lt_succ enough)
      rwa [getLast?_concat] at next

theorem Memory.sockclose_of_free {held : Option Page} (mem : s.Memory list queue held)
    (absent : page ∉ list) (isFree : s.pages page = .free) :
    s.sockclose page = .error (.useAfterFree page) := by
  have walk : s.unlink page (nPages + 1) none = .ok s :=
    mem.unlink_absent (nil_append list).symm absent (Nat.lt_succ_of_le mem.list_length_le)
  have noSock : s.pages.sock page = .error (.useAfterFree page) := by
    rw [Pages.sock, isFree]
    dsimp only
    rw [fault, isFree]
  rw [SockState.sockclose, walk]
  dsimp only [bind, Except.bind]
  rw [SockState.drain, mbufqEmpty, noSock]
  rfl

theorem Inv.sockalloc_duplicate (inv : s.Inv list queue) (duplicate : s.Duplicate conn) :
    ∃ page, s.sockalloc conn = .error (.useAfterFree page) := by
  rcases inv.sockalloc_cases conn with ⟨_, noFile | noPage⟩ |
    ⟨f, page, prepared, ready, isFree, _, run⟩
  · exact absurd noFile duplicate.1
  · exact absurd noPage duplicate.2.1
  rcases ready.find inv with ⟨_, notConnected⟩ | ⟨⟨found, isFound⟩, _⟩
  · exact absurd duplicate.2.2 notConnected
  have h : prepared.pages page = .sock ⟨none, conn, none, none⟩ := by
    rw [ready.pages]
    exact set_self _ _ _
  have notMbuf : ∀ packet, prepared.pages page ≠ .mbuf packet := by
    intro packet isMbuf
    rw [h] at isMbuf
    cases isMbuf
  have notFree : prepared.pages page ≠ .free := by
    rw [h]
    rintro ⟨⟩
  have notOther : prepared.pages page ≠ .other := by
    rw [h]
    rintro ⟨⟩
  have empty : queue page = [] := by
    apply inv.memory.noQueue
    rw [ready.wasFree]
    rfl
  have freed := ready.memory.kfree notFree (ready.memory.lt_nPages notOther)
    (ready.notIn inv) empty (ready.memory.unqueued notMbuf) (fun _ _ => Iff.rfl)
    (some_ne_none page).symm
  revert freed
  generalize isLast : setPage _ page .free = last
  intro freed
  have lastFile : last.files f = { ref := 1, type := .sock, sock := page } := by
    rw [← isLast]
    change prepared.files f = _
    rw [ready.files, update_self]
  have lastPage : last.pages page = .free := by
    rw [← isLast]
    exact set_self _ _ _
  have closed : last.fileclose f = .error (.useAfterFree page) := by
    rw [SockState.fileclose, lastFile]
    dsimp only
    rw [if_neg (by decide), if_neg (by decide)]
    have mem : (last.setFile f { ref := 0, type := .none, sock := page }).Memory
      list queue none := { freed.2 with }
    exact mem.sockclose_of_free (ready.notIn inv) lastPage
  refine ⟨page, ?_⟩
  rw [run, isFound]
  dsimp only [bind, Except.bind]
  rw [freed.1]
  dsimp only
  rw [closed]

/-! ## Packets -/

theorem Inv.sockrecvudp (inv : s.Inv list queue) {pkt : Mbuf} {m : Page}
    (took : s.kalloc (.mbuf pkt) = some (m, after)) (conn : Connection) :
    ∃ last, after.sockrecvudp m conn = .ok last ∧ ∃ queue, last.Inv list queue := by
  have fresh : ∀ si, mbuf pkt = .sock si → si.head = none := by rintro si ⟨⟩
  have others : ∀ o, o ≠ m → (some m = some o ↔ (none : Option Page) = some o) := by
    intro o ne
    simp [ne.symm]
  have here : some m = some m ↔ ∃ o, mbuf pkt = .mbuf o := by simp
  rcases inv.memory.kalloc fresh (by simp) took others here
    with ⟨mem, wasFree, pages, sockets, files, _⟩
  have socks : ∀ o, (after.pages o).isSock = (s.pages o).isSock := by
    intro o
    rw [pages]
    by_cases isM : o = m
    · rw [isM, set_self, wasFree]
      rfl
    · rw [set_ne _ isM]
  have full : ∀ o, (after.pages o).isSock = true → o ∈ list := by
    intro o isSock
    rw [socks] at isSock
    exact inv.complete o isSock
  have opened : Opened after.files list := by
    rw [files]
    exact inv.opened
  rw [SockState.sockrecvudp, mem.findSock]
  dsimp only [bind, Except.bind]
  cases hit : list.find? fun page => (after.pages page).connection = some conn with
  | none =>
    rcases mem.kfreeHeld with ⟨last, freed, memoryLast, lastFiles, _, lastSocks⟩
    refine ⟨last, freed, queue, memoryLast, ?_, ?_⟩
    · intro o isSock
      rw [lastSocks] at isSock
      exact full o isSock
    · rwa [lastFiles]
  | some page =>
    have member := mem_of_find?_eq_some hit
    rcases exists_of_isSock (mem.inList page member) with ⟨si, h⟩
    rcases mem.push h with ⟨pushedPages, pushed, memoryLast, lastSocks⟩
    dsimp only
    rw [pushed]
    refine ⟨_, rfl, _, memoryLast, ?_, opened⟩
    intro o isSock
    change (pushedPages o).isSock = true at isSock
    rw [lastSocks] at isSock
    exact full o isSock

theorem Inv.sockread (inv : s.Inv list queue) (is : (s.files f).Is page) (killed : Bool) :
    ∃ bytes after, s.sockread page killed = .ok (bytes, after) ∧ ∃ queue, after.Inv list queue := by
  have member := inv.opened.mem_list f page is
  rcases exists_of_isSock (inv.memory.inList page member) with ⟨si, h⟩
  rw [SockState.sockread, Pages.mbufqEmpty_eq h (inv.memory.queues page si h)]
  dsimp only [bind, Except.bind]
  cases isQueue : queue page with
  | nil => exact ⟨_, _, rfl, queue, inv⟩
  | cons m rest =>
    rw [if_neg (by simp)]
    split
    · exact ⟨_, _, rfl, queue, inv⟩
    rcases inv.memory.pop h isQueue with ⟨head, popped, mem⟩
    rcases mem.inHand m rfl with ⟨⟨pkt, isMbuf⟩, _⟩
    rcases mem.kfreeHeld with ⟨last, freed, memoryLast, lastFiles, _, lastSocks⟩
    change s.pages.set page _ m = _ at isMbuf
    rw [setPage] at freed
    rw [popped]
    dsimp only
    rw [mbuf_eq isMbuf]
    dsimp only
    rw [freed]
    refine ⟨_, _, rfl, _, memoryLast, ?_, ?_⟩
    · intro o isSock
      rw [lastSocks] at isSock
      exact inv.complete o ((isSock_set_sock h o).symm.trans isSock)
    · rw [lastFiles]
      exact inv.opened

end SockState

/-! ## Runs -/

/-- The call is a `sockalloc` for a connection that exists. -/
def SockOp.Duplicate (op : SockOp) (s : SockState) : Prop :=
  ∃ conn, op = .sockalloc conn ∧ s.Duplicate conn

namespace SockState

variable {s : SockState} {list : List Page} {queue : Page → List Page}

theorem Inv.filealloc (inv : s.Inv list queue) {f : Fin nFile} {after : SockState}
    (took : s.filealloc = some (f, after)) :
    (after.setFile f { after.files f with type := .other }).Inv list queue := by
  rw [SockState.filealloc, Option.map_eq_some_iff] at took
  rcases took with ⟨g, isFree, eq⟩
  cases eq
  refine ⟨{ inv.memory with }, inv.complete, ?_⟩
  rw [setFile, setFile]
  dsimp only
  rw [update_idem, update_self]
  apply inv.opened.setOther
  · intro page is
    exact is.opened (ref_of_freeFile isFree)
  · rintro ⟨⟩
  · rintro ⟨⟩

theorem Inv.kallocOther (inv : s.Inv list queue) {page : Page} {after : SockState}
    (took : s.kalloc .other = some (page, after)) : after.Inv list queue := by
  have fresh : ∀ si, other = .sock si → si.head = none := by rintro si ⟨⟩
  have here : (none : Option Page) = some page ↔ ∃ packet, other = .mbuf packet := by simp
  rcases inv.memory.kalloc fresh (by simp) took (fun _ _ => Iff.rfl) here
    with ⟨mem, wasFree, pages, _, files, _⟩
  refine ⟨mem, ?_, ?_⟩
  · intro o isSock
    rw [pages] at isSock
    by_cases isPage : o = page
    · rw [isPage, set_self] at isSock
      cases isSock
    · rw [set_ne _ isPage] at isSock
      exact inv.complete o isSock
  · rw [files]
    exact inv.opened

theorem Inv.kfreeOther (inv : s.Inv list queue) {page : Page} (h : s.pages page = .other)
    (below : page < nPages) : ∃ after, s.kfree page = .ok after ∧ after.Inv list queue := by
  have notSock : (s.pages page).isSock = false := by
    rw [h]
    rfl
  have used : s.pages page ≠ .free := by
    rw [h]
    rintro ⟨⟩
  have notMbuf : ∀ packet, s.pages page ≠ .mbuf packet := by
    intro packet isMbuf
    rw [h] at isMbuf
    cases isMbuf
  have outside : page ∉ list := by
    intro member
    rw [inv.memory.inList page member] at notSock
    cases notSock
  have freed := inv.memory.kfree used below outside (inv.memory.noQueue page notSock)
    (inv.memory.unqueued notMbuf) (fun _ _ => Iff.rfl) (some_ne_none page).symm
  refine ⟨_, freed.1, freed.2, ?_, inv.opened⟩
  intro o isSock
  by_cases isPage : o = page
  · have isFree : (s.pages.set page .free) page = .free := set_self _ _ _
    rw [isPage] at isSock
    change ((s.pages.set page .free) page).isSock = true at isSock
    rw [isFree] at isSock
    cases isSock
  · change ((s.pages.set page .free) o).isSock = true at isSock
    rw [set_ne _ isPage] at isSock
    exact inv.complete o isSock

end SockState

theorem SockOp.run_inv {s : SockState} {list : List Page} {queue : Page → List Page}
    (inv : s.Inv list queue) {op : SockOp} (notDup : ¬op.Duplicate s) :
    ∃ out, op.run s = .ok out ∧ ∃ list queue, out.2.Inv list queue := by
  cases op with
  | sockalloc conn =>
    rcases inv.sockalloc fun dup => notDup ⟨conn, rfl, dup⟩
      with ⟨ok, after, ran, invAfter, _⟩
    exact ⟨_, ran, invAfter⟩
  | sockrecvudp pkt conn =>
    rw [run]
    cases took : s.kalloc (.mbuf pkt) with
    | none => exact ⟨_, rfl, list, queue, inv⟩
    | some out =>
      rcases inv.sockrecvudp took conn with ⟨last, ran, lastQueue, invLast⟩
      dsimp only
      rw [ran]
      exact ⟨_, rfl, list, lastQueue, invLast⟩
  | sockread f killed =>
    rw [run]
    split
    · next isSock =>
      rcases inv.sockread ⟨isSock.1, isSock.2, rfl⟩ killed
        with ⟨bytes, after, ran, afterQueue, invAfter⟩
      rw [ran]
      exact ⟨_, rfl, list, afterQueue, invAfter⟩
    · exact ⟨_, rfl, list, queue, inv⟩
  | filedup f =>
    rw [run]
    split
    · next opened =>
      refine ⟨_, rfl, list, queue, { inv.memory with }, inv.complete, ?_⟩
      exact inv.opened.setRef opened (Nat.succ_ne_zero _)
    · exact ⟨_, rfl, list, queue, inv⟩
  | fileclose f =>
    rw [run]
    split
    · next opened =>
      rcases inv.fileclose opened with ⟨after, ran, invAfter, _⟩
      rw [ran]
      exact ⟨_, rfl, invAfter⟩
    · exact ⟨_, rfl, list, queue, inv⟩
  | filealloc =>
    rw [run]
    cases took : s.filealloc with
    | none => exact ⟨_, rfl, list, queue, inv⟩
    | some out => exact ⟨_, rfl, list, queue, inv.filealloc took⟩
  | kalloc =>
    rw [run]
    cases took : s.kalloc .other with
    | none => exact ⟨_, rfl, list, queue, inv⟩
    | some out => exact ⟨_, rfl, list, queue, inv.kallocOther took⟩
  | kfree page =>
    rw [run]
    split
    · next h =>
      split
      · next below =>
        rcases inv.kfreeOther h below with ⟨after, freed, invAfter⟩
        rw [freed]
        exact ⟨_, rfl, list, queue, invAfter⟩
      · exact ⟨_, rfl, list, queue, inv⟩
    · exact ⟨_, rfl, list, queue, inv⟩

/-- The states that calls lead to, none of which is a duplicate connection. -/
inductive SockState.Reached (boot : SockState) : SockState → Prop
  | boot : Reached boot boot
  | step {s after : SockState} {op : SockOp} {ok : Bool} (reached : Reached boot s)
      (notDuplicate : ¬op.Duplicate s) (ran : op.run s = .ok (ok, after)) :
      Reached boot after

/-- A state without sockets and packets. -/
structure SockState.Fresh (s : SockState) : Prop where
  sockets : s.sockets = none
  pages : ∀ page, s.pages page = .free ∨ s.pages page = .other
  files : ∀ f, (s.files f).type ≠ .sock
  closed : ∀ f, (s.files f).ref = 0 → (s.files f).type = .none
  nodup : s.freelist.Nodup
  free : ∀ page, page ∈ s.freelist ↔ s.pages page = .free
  bound : ∀ page, nPages ≤ page → s.pages page = .other

namespace SockState

variable {boot s : SockState}

theorem Fresh.inv (fresh : boot.Fresh) : boot.Inv [] fun _ => [] := by
  have neither : ∀ page, (boot.pages page).isSock = false ∧ (boot.pages page).isMbuf = false := by
    intro page
    rcases fresh.pages page with isFree | isOther
    · rw [isFree]
      exact ⟨rfl, rfl⟩
    · rw [isOther]
      exact ⟨rfl, rfl⟩
  refine ⟨⟨fresh.sockets, ?_, ?_, fun _ _ => rfl, ?_, ?_, ?_, fresh.nodup, fresh.free,
    fresh.bound⟩, ?_, ?_, ?_, ?_, fresh.closed⟩
  · rintro page ⟨⟩
  · intro page si h
    have notSock := (neither page).1
    rw [h] at notSock
    cases notSock
  · rintro page o _ m ⟨⟩
  · rintro m ⟨⟩
  · intro m pkt h
    have notMbuf := (neither m).2
    rw [h] at notMbuf
    cases notMbuf
  · intro page isSock
    rw [(neither page).1] at isSock
    cases isSock
  · intro f page is
    exact absurd is.type (fresh.files f)
  · rintro page ⟨⟩
  · intro f g page is
    exact absurd is.type (fresh.files f)

theorem Reached.inv (got : Reached boot s) (fresh : boot.Fresh) :
    ∃ list queue, s.Inv list queue := by
  induction got with
  | boot => exact ⟨_, _, fresh.inv⟩
  | step _ notDup ran ih =>
    rcases ih with ⟨list, queue, inv⟩
    rcases SockOp.run_inv inv notDup with ⟨out, isRes, invAfter⟩
    rw [ran] at isRes
    cases isRes
    exact invAfter

/-- Once no file is a socket, no page is a socket or a packet. -/
theorem no_page_leaks (fresh : boot.Fresh) (reached : Reached boot s)
    (closed : ∀ f page, ¬(s.files f).Is page) (page : Page) :
    page ∈ s.freelist ∨ s.pages page = .other := by
  rcases reached.inv fresh with ⟨list, queue, inv⟩
  have none : ∀ o, (s.pages o).isSock = false := by
    intro o
    by_contra isSock
    rcases inv.opened.owner o (inv.complete o (by simpa using isSock)) with ⟨f, is⟩
    exact closed f o is
  cases holds : s.pages page with
  | free => exact .inl ((inv.memory.free page).mpr holds)
  | other => exact .inr rfl
  | sock => simpa [holds, isSock] using none page
  | mbuf packet =>
    rcases inv.memory.mbufs page packet holds with held | ⟨o, queued⟩
    · cases held
    · rw [inv.memory.noQueue o (none o)] at queued
      cases queued

/-- While no connection is made twice, the page of a socket is in use as long as its file is
open, is freed once, and is not used afterwards. -/
theorem socket_pages_freed_once (fresh : boot.Fresh) (reached : Reached boot s) :
    (∀ op : SockOp, (∃ out, op.run s = .ok out) ↔ ¬op.Duplicate s) ∧
    (∀ page, (∃ si, s.pages page = .sock si) ↔ ∃ f, (s.files f).Is page) ∧
    (∀ f g page, (s.files f).Is page → (s.files g).Is page → f = g) ∧
    (s.freelist.Nodup ∧ ∀ page, page ∈ s.freelist ↔ s.pages page = .free) ∧
    (∀ f page after, (s.files f).Is page → (s.files f).ref = 1 →
      s.fileclose f = .ok after → after.pages page = .free) ∧
    ∀ conn after, s.sockalloc conn = .ok (false, after) → after = s := by
  rcases reached.inv fresh with ⟨list, queue, inv⟩
  have faults : ∀ conn, s.Duplicate conn → ∀ out, s.sockalloc conn ≠ .ok out := by
    intro conn duplicate out ran
    rcases inv.sockalloc_duplicate duplicate with ⟨page, failed⟩
    rw [failed] at ran
    cases ran
  refine ⟨?_, ?_, inv.opened.once, ⟨inv.memory.nodup, inv.memory.free⟩, ?_, ?_⟩
  · intro op
    constructor
    · intro ends duplicate
      rcases ends with ⟨out, ran⟩
      rcases duplicate with ⟨conn, isAlloc, duplicate⟩
      rw [isAlloc] at ran
      exact faults conn duplicate out ran
    · intro notDuplicate
      rcases SockOp.run_inv inv notDuplicate with ⟨out, ran, _⟩
      exact ⟨out, ran⟩
  · intro page
    constructor
    · rintro ⟨si, holds⟩
      apply inv.opened.owner
      apply inv.complete
      rw [holds]
      rfl
    · rintro ⟨f, is⟩
      exact Contents.exists_of_isSock (inv.memory.inList page (inv.opened.mem_list f page is))
  · intro f page after is last closed
    rcases inv.fileclose is.opened with ⟨after', closed', _, frees⟩
    rw [closed] at closed'
    cases closed'
    exact frees last page is
  · intro conn after failed
    by_cases duplicate : s.Duplicate conn
    · exact absurd failed (faults conn duplicate _)
    rcases inv.sockalloc duplicate with ⟨ok, after', ran, _, same⟩
    rw [failed] at ran
    cases ran
    exact same rfl

/-! ## A kernel with three free pages -/

def threePages : SockState where
  pages page := if page < 3 then .free else .other
  freelist := [0, 1, 2]
  files _ := ⟨0, .none, 0⟩
  sockets := none

theorem threePages_fresh : threePages.Fresh where
  sockets := rfl
  pages page := by
    by_cases free : page < 3
    · exact .inl (if_pos free)
    · exact .inr (if_neg free)
  files f := by rintro ⟨⟩
  closed f _ := rfl
  nodup := by decide
  free page := by
    have mem : ∀ number : Nat, number ∈ [0, 1, 2] ↔ number < 3 := by
      intro number
      simp only [mem_cons, not_mem_nil, or_false]
      omega
    refine (mem page).trans ?_
    constructor
    · intro free
      exact if_pos free
    intro isFree
    by_contra used
    have isO : threePages.pages page = .other := if_neg used
    rw [isO] at isFree
    cases isFree
  bound page large := by
    have few : 3 ≤ nPages := by decide
    exact if_neg (not_lt.mpr (le_trans few large))

def someConnection : Connection := ⟨0x0A000202, 2000, 25600⟩

theorem sockalloc_threePages : ∃ after, threePages.sockalloc someConnection = .ok (true, after) ∧
    (after.pages 0).isSock = true ∧ after.sockalloc someConnection = .error (.useAfterFree 1) := by
  have evaluated : (match threePages.sockalloc someConnection with
      | .ok (true, after) => (after.pages 0).isSock &&
          match after.sockalloc someConnection with
          | .error fault => fault == .useAfterFree 1
          | .ok _ => false
      | _ => false) = true := by
    decide +kernel
  cases first : threePages.sockalloc someConnection with
  | error fault =>
    rw [first] at evaluated
    cases evaluated
  | ok out =>
    rcases out with ⟨ok, after⟩
    rw [first] at evaluated
    cases ok with
    | false => cases evaluated
    | true =>
      rcases Bool.and_eq_true_iff.mp evaluated with ⟨isSock, faults⟩
      cases second : after.sockalloc someConnection with
      | error fault =>
        rw [second] at faults
        exact ⟨after, rfl, isSock, second.trans (congrArg _ (eq_of_beq faults))⟩
      | ok out =>
        rw [second] at faults
        cases faults

/-- The page of the second socket is read after it has been freed. -/
theorem second_connection_uses_freed_page : ∃ after page, threePages.Fresh ∧
    threePages.sockalloc someConnection = .ok (true, after) ∧
    after.sockalloc someConnection = .error (.useAfterFree page) := by
  rcases sockalloc_threePages with ⟨after, first, _, second⟩
  exact ⟨after, 1, threePages_fresh, first, second⟩

theorem threePages_notDuplicate : ¬(SockOp.sockalloc someConnection).Duplicate threePages := by
  rintro ⟨conn, _, _, _, page, isConnection⟩
  rcases threePages_fresh.pages page with isFree | isOther
  · rw [isFree] at isConnection
    cases isConnection
  · rw [isOther] at isConnection
    cases isConnection

theorem run_eq_ok {op : SockOp} {out : Bool × SockState} (ran : (op.run s).toOption = some out) :
    op.run s = .ok out := by
  cases result : op.run s with
  | error fault => simp [result, Except.toOption] at ran
  | ok value =>
    rw [result] at ran
    exact congrArg _ (Option.some.inj ran)

/-- A packet of one byte. -/
def somePacket : Mbuf := ⟨none, mbufDefaultHeadroom, 1, fun _ => 7⟩

/-- A socket is opened, a packet is queued at it, and its file is closed. -/
theorem threePages_closes : ∃ (queued closed : SockState) (f : Fin nFile),
    Reached threePages queued ∧ Reached threePages closed ∧
    (queued.files f).Is 0 ∧ (queued.files f).ref = 1 ∧ queued.freelist = [2] ∧
    queued.fileclose f = .ok closed ∧ ∀ g, (closed.files g).ref = 0 := by
  have found (f : Fin nFile) (isFirst : f = ⟨0, by decide⟩) :
      ((SockOp.sockalloc someConnection).run threePages).toOption.bind (fun opened =>
        ((SockOp.sockrecvudp somePacket someConnection).run opened.2).toOption.bind fun queued =>
        ((SockOp.fileclose f).run queued.2).toOption.map fun closed =>
          ((queued.2.files f).ref, (queued.2.files f).type, (queued.2.files f).sock,
            queued.2.freelist, decide (∀ g, (closed.2.files g).ref = 0))) =
      some (1, .sock, 0, [2], true) := by
    subst isFirst
    decide +kernel
  rcases Option.bind_eq_some_iff.mp (found _ rfl) with ⟨opened, first, rest⟩
  rcases Option.bind_eq_some_iff.mp rest with ⟨queued, second, rest⟩
  rcases Option.map_eq_some_iff.mp rest with ⟨closed, third, shown⟩
  simp only [Prod.mk.injEq, decide_eq_true_eq] at shown
  rcases shown with ⟨ref, type, sock, free, none⟩
  have reached : Reached threePages queued.2 :=
    .step (.step .boot threePages_notDuplicate (run_eq_ok first)) (by rintro ⟨_, ⟨⟩, _⟩)
      (run_eq_ok second)
  have ran := run_eq_ok third
  refine ⟨queued.2, closed.2, _, reached, .step reached (by rintro ⟨_, ⟨⟩, _⟩) ran,
    ⟨by simp [ref], type, sock⟩, ref, free, ?_, none⟩
  rw [SockOp.run, if_pos (by simp [ref])] at ran
  rcases close : queued.2.fileclose ⟨0, by decide⟩ with fault | after
  · rw [close] at ran
    cases ran
  · rw [close] at ran
    cases ran
    rfl

theorem no_page_leaks_closed : ∃ queued closed f, Reached threePages queued ∧
    queued.freelist = [2] ∧ queued.fileclose f = .ok closed ∧
    ∀ page, page ∈ closed.freelist ∨ closed.pages page = .other := by
  rcases threePages_closes with ⟨queued, closed, f, isQueued, isClosed, _, _, free, closes, none⟩
  exact ⟨queued, closed, f, isQueued, free, closes,
    no_page_leaks threePages_fresh isClosed fun g _ is => is.opened (none g)⟩

theorem socket_pages_freed_once_closed : ∃ queued closed f si, Reached threePages queued ∧
    queued.pages 0 = .sock si ∧ queued.freelist = [2] ∧ queued.fileclose f = .ok closed ∧
    closed.pages 0 = .free := by
  rcases threePages_closes with ⟨queued, closed, f, isQueued, _, is, last, free, closes, _⟩
  have holds := socket_pages_freed_once threePages_fresh isQueued
  rcases (holds.2.1 0).mpr ⟨f, is⟩ with ⟨si, isSock⟩
  exact ⟨queued, closed, f, si, isQueued, isSock, free, closes,
    holds.2.2.2.2.1 f 0 closed is last closes⟩

end SockState

end Xv6
