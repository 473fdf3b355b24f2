import Xv6.Net.Mbufq

/-! # Sockets

The calls of `sysnet.c` on the list of sockets, with the page allocator and the file
table under them. A wrong use of a page ends a call with a fault. -/

namespace Xv6

open Foundation

/-- Open files in the system. -/
def nFile : Nat := 100

/-- The pages of physical memory. -/
def nPages : Nat := 128 * 1024 * 1024 / pgSize

/-- What the type of an open file says about sockets. -/
inductive FileKind
  | none
  | sock
  | other
deriving DecidableEq

/-- `struct file`. -/
structure SockFile where
  ref : Nat
  type : FileKind
  sock : Page

/-- The page allocator, the file table and the list of sockets. -/
structure SockState where
  pages : Pages
  freelist : List Page
  files : Fin nFile → SockFile
  sockets : Option Page

namespace SockState

/-! ## Pages and files -/

def setPage (s : SockState) (page : Page) (contents : Contents) : SockState :=
  { s with pages := s.pages.set page contents }

def setFile (s : SockState) (f : Fin nFile) (file : SockFile) : SockState :=
  { s with files := Function.update s.files f file }

/-- `kalloc`, for the use that `contents` says. -/
def kalloc (contents : Contents) (s : SockState) : Option (Page × SockState) :=
  match s.freelist with
  | [] => none
  | page :: rest => some (page, { s with freelist := rest }.setPage page contents)

def kfree (page : Page) (s : SockState) : Except SockFault SockState :=
  match s.pages page with
  | .free => .error (.doubleFree page)
  | _ => .ok ({ s with freelist := page :: s.freelist }.setPage page .free)

/-- The first entry of the file table that is not in use. -/
def freeFile (s : SockState) : Option (Fin nFile) :=
  (List.finRange nFile).find? fun f => (s.files f).ref = 0

def filealloc (s : SockState) : Option (Fin nFile × SockState) :=
  s.freeFile.map fun f => (f, s.setFile f { s.files f with ref := 1 })

/-! ## The list of sockets -/

/-- The walk along the list for a connection. -/
def findSock (pages : Pages) (conn : Connection) :
    (fuel : Nat) → Option Page → Except SockFault (Option Page)
  | _, none => .ok none
  | 0, some _ => .error .endless
  | fuel + 1, some pos => do
      let si ← pages.sock pos
      if si.connection = conn then .ok (some pos)
      else findSock pages conn fuel si.next

/-- `*pos`, where `pos` is `&sockets` or the field `next` of a socket. -/
def deref (s : SockState) : (pos : Option Page) → Except SockFault (Option Page)
  | none => .ok s.sockets
  | some page => do
      let si ← s.pages.sock page
      .ok si.next

/-- `*pos = value`. -/
def store (s : SockState) (value : Option Page) :
    (pos : Option Page) → Except SockFault SockState
  | none => .ok { s with sockets := value }
  | some page => do
      let si ← s.pages.sock page
      .ok (s.setPage page (.sock { si with next := value }))

/-- The loop of `sockclose` that takes a socket out of the list. -/
def unlink (page : Page) : (fuel : Nat) → (pos : Option Page) → SockState →
    Except SockFault SockState
  | 0, _, _ => .error .endless
  | fuel + 1, pos, s => do
      match ← s.deref pos with
      | none => .ok s
      | some here =>
        if here = page then do
          let si ← s.pages.sock page
          s.store si.next pos
        else unlink page fuel (some here) s

/-- The loop of `sockclose` that frees pending mbufs. -/
def drain (page : Page) : (fuel : Nat) → SockState → Except SockFault SockState
  | 0, _ => .error .endless
  | fuel + 1, s => do
      if ← s.pages.mbufqEmpty page then .ok s
      else
        match ← s.pages.mbufqPophead page with
        | (none, _) => .error .nullPointer
        | (some m, pages) => do
            let s ← { s with pages := pages }.kfree m
            drain page fuel s

/-! ## Calls -/

def sockclose (page : Page) (s : SockState) : Except SockFault SockState := do
  let s ← s.unlink page (nPages + 1) none
  let s ← s.drain page (nPages + 1)
  s.kfree page

def fileclose (f : Fin nFile) (s : SockState) : Except SockFault SockState :=
  let file := s.files f
  if file.ref < 1 then .error .fileclose
  else if 1 < file.ref then .ok (s.setFile f { file with ref := file.ref - 1 })
  else
    let s := s.setFile f { file with ref := 0, type := .none }
    match file.type with
    | .sock => s.sockclose file.sock
    | _ => .ok s

/-- `sockalloc`, which says whether it succeeds. -/
def sockalloc (conn : Connection) (s : SockState) :
    Except SockFault (Bool × SockState) :=
  match s.filealloc with
  | none => .ok (false, s)
  | some (f, s) =>
    match s.kalloc (.sock ⟨none, conn, none, none⟩) with
    | none => do
        let s ← s.fileclose f
        .ok (false, s)
    | some (page, s) => do
        let s := s.setFile f { s.files f with type := .sock, sock := page }
        match ← findSock s.pages conn nPages s.sockets with
        | some _ => do
            let s ← s.kfree page
            let s ← s.fileclose f
            .ok (false, s)
        | none => do
            let si ← s.pages.sock page
            .ok (true, { s.setPage page (.sock { si with next := s.sockets }) with
              sockets := some page })

/-- `sockrecvudp` of an mbuf that is in a page of its own. -/
def sockrecvudp (m : Page) (conn : Connection) (s : SockState) :
    Except SockFault SockState := do
  match ← findSock s.pages conn nPages s.sockets with
  | none => s.kfree m
  | some page => do
      let pages ← s.pages.mbufqPushtail page m
      .ok { s with pages := pages }

/-- `sockread`, which returns the bytes of the mbuf. It waits while there is none, and
gives up when the process is killed; then nothing changes. -/
def sockread (page : Page) (killed : Bool) (s : SockState) :
    Except SockFault (Option (List UInt8) × SockState) := do
  if ← s.pages.mbufqEmpty page then .ok (none, s)
  else if killed then .ok (none, s)
  else
    match ← s.pages.mbufqPophead page with
    | (none, _) => .error .nullPointer
    | (some m, pages) => do
        let packet ← pages.mbuf m
        let s ← { s with pages := pages }.kfree m
        .ok (some packet.frame, s)

end SockState

/-! ## Sequences of calls -/

/-- Calls on sockets, and what the rest of the kernel does with pages and open files. -/
inductive SockOp
  | sockalloc (conn : Connection)
  /-- A packet arrives in a page of its own. -/
  | sockrecvudp (packet : Mbuf) (conn : Connection)
  | sockread (f : Fin nFile) (killed : Bool)
  | filedup (f : Fin nFile)
  | fileclose (f : Fin nFile)
  /-- A file that is no socket is opened. -/
  | filealloc
  /-- A page is taken for something else. -/
  | kalloc
  | kfree (page : Page)

namespace SockOp

/-- What a call does; the value says whether `sockalloc` succeeds. Calls that name a file
need it to be open, and a page that is freed from elsewhere is in use there. -/
def run (op : SockOp) (s : SockState) : Except SockFault (Bool × SockState) :=
  match op with
  | .sockalloc conn => s.sockalloc conn
  | .sockrecvudp packet conn =>
    match s.kalloc (.mbuf packet) with
    | none => .ok (true, s)
    | some (m, s) => do
        let s ← s.sockrecvudp m conn
        .ok (true, s)
  | .sockread f killed =>
    if (s.files f).ref ≠ 0 ∧ (s.files f).type = .sock then do
      let (_, s) ← s.sockread (s.files f).sock killed
      .ok (true, s)
    else .ok (true, s)
  | .filedup f =>
    if (s.files f).ref ≠ 0 then
      .ok (true, s.setFile f { s.files f with ref := (s.files f).ref + 1 })
    else .ok (true, s)
  | .fileclose f =>
    if (s.files f).ref ≠ 0 then do
      let s ← s.fileclose f
      .ok (true, s)
    else .ok (true, s)
  | .filealloc =>
    match s.filealloc with
    | none => .ok (true, s)
    | some (f, s) => .ok (true, s.setFile f { s.files f with type := .other })
  | .kalloc =>
    match s.kalloc .other with
    | none => .ok (true, s)
    | some (_, s) => .ok (true, s)
  | .kfree page =>
    match s.pages page with
    | .other =>
      if page < nPages then do
        let s ← s.kfree page
        .ok (true, s)
      else .ok (true, s)
    | _ => .ok (true, s)

end SockOp

end Xv6
