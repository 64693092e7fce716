import MagnetoX.Library.Run
import MagnetoX.Manager.Locating

/-!
Owns the requests `/set-mcu-uuid` and `/set-can-uuid` of the manager, which its server
runs in threads of their own. A request copies the config file to the backup, reads
it, and writes all of it back; each of these is one step, and the steps of different
requests come in any order. Nothing keeps a request from writing back what it read
before another one wrote.

A request that finds no config file, no device or not two uuids ends before its first
step.
-/

namespace MagnetoX.Manager

open Host.ConfigFile Library.Run List

inductive Phase where
  | arrived
  | backedUp
  /-- The contents are those at the time of reading. `overtaken` is for the proofs: a
  request of the other kind has written since. -/
  | hasRead (contents : Text) (overtaken : Bool)
  | answered (success : Bool)
deriving DecidableEq

structure Request where
  edit : Edit
  phase : Phase
deriving DecidableEq

structure Server where
  /-- `CONFIG_PATH`. -/
  file : Text
  /-- `BACKUP_PATH`. -/
  backup : Text
  requests : List Request
  /-- The requests that reported success, in order. -/
  succeeded : List Edit
deriving DecidableEq

inductive Input where
  | arrive (edit : Edit)
  | advance (index : Nat)
deriving DecidableEq

def Request.overtake (kind : Kind) (request : Request) : Request :=
  match request.phase with
  | .hasRead contents overtaken =>
      { request with phase := .hasRead contents (overtaken || decide (request.edit.kind ≠ kind)) }
  | _ => request

/-- The next step of `set_mcu_uuid` or `set_can_uuid`. -/
def Server.advance (server : Server) (index : Nat) (request : Request) : Option Server :=
  match request.phase with
  | .arrived =>
      some { server with
        backup := server.file
        requests := server.requests.set index { request with phase := .backedUp } }
  | .backedUp =>
      some { server with
        requests := server.requests.set index { request with phase := .hasRead server.file false } }
  | .hasRead contents _ =>
      match request.edit.apply contents with
      | some new =>
          some { server with
            file := new
            requests := (server.requests.map (Request.overtake request.edit.kind)).set index
              { request with phase := .answered true }
            succeeded := server.succeeded ++ [request.edit] }
      | none =>
          some { server with
            requests := server.requests.set index { request with phase := .answered false } }
  | .answered _ => none

def Server.step (server : Server) : Input → Option Server
  | .arrive edit => some { server with requests := server.requests ++ [⟨edit, .arrived⟩] }
  | .advance index => server.requests[index]?.bind (server.advance index)

/-- The request is about to write over the edit of a request of the other kind. -/
def Request.overtaken (request : Request) : Bool :=
  match request.phase with
  | .hasRead _ overtaken => overtaken
  | _ => false

def Server.freshStep (server : Server) : Input → Option Server
  | .arrive edit => server.step (.arrive edit)
  | .advance index =>
      if server.requests[index]?.any Request.overtaken then none else server.step (.advance index)

/-- Every kind of successful edit is in the text, with the value of a successful one. -/
def Keeps (succeeded : List Edit) (text : Text) (kind : Kind) : Prop :=
  ∀ edit ∈ succeeded, edit.kind = kind → ∃ other ∈ succeeded, other.kind = kind ∧ Shows text other

def Server.KeepsAll (server : Server) : Prop := ∀ kind, Keeps server.succeeded server.file kind

structure Server.Inv (server : Server) : Prop where
  file : server.KeepsAll
  readers : ∀ request ∈ server.requests, ∀ contents, request.phase = .hasRead contents false →
    ∀ kind, kind ≠ request.edit.kind → Keeps server.succeeded contents kind

section Steps

variable {server after : Server} {request : Request} {index : Nat} {contents new : Text}
  {succeeded : List Edit} {kind : Kind} {edit : Edit}

theorem Keeps.append (keeps : Keeps succeeded contents kind)
    (differs : kind ≠ edit.kind) : Keeps (succeeded ++ [edit]) contents kind := by
  intro first isFirst ofKind
  rcases mem_append.mp isFirst with old | isNew
  · obtain ⟨other, isOther, sameKind, shows_⟩ := keeps first old ofKind
    exact ⟨other, mem_append_left _ isOther, sameKind, shows_⟩
  · rw [mem_singleton.mp isNew] at ofKind
    exact absurd ofKind.symm differs

theorem Keeps.edited
    (keeps : ∀ kind, kind ≠ edit.kind → Keeps succeeded contents kind) (applies : edit.apply contents = some new)
    (kind : Kind) : Keeps (succeeded ++ [edit]) new kind := by
  by_cases own : kind = edit.kind
  · subst own
    exact fun _ _ _ => ⟨edit, mem_append_right _ (.head _), rfl, edit.shows applies⟩
  · intro first isFirst ofKind
    obtain ⟨other, isOther, sameKind, shows_⟩ := (keeps kind own).append own first isFirst ofKind
    refine ⟨other, isOther, sameKind, edit.shows_other other applies ?_ shows_⟩
    rw [sameKind]
    exact own

theorem overtake_eq_hasRead (reads : (request.overtake kind).phase = .hasRead contents false) :
    request.phase = .hasRead contents false ∧ request.edit.kind = kind ∧
      (request.overtake kind).edit = request.edit := by
  unfold Request.overtake at reads ⊢
  split at reads
  · rename_i found overtaken isReader
    cases flag : overtaken with
    | true =>
      rw [flag] at reads
      cases reads
    | false =>
      rw [flag, Bool.false_or] at reads
      have same := (Phase.hasRead.inj reads)
      refine ⟨?_, ?_, rfl⟩
      · rw [isReader, flag, same.1]
      · exact not_not.mp (of_decide_eq_false same.2)
  · rename_i noReader
    exact absurd reads (noReader contents false)

theorem Server.Inv.move (inv : server.Inv) (sameFile : after.file = server.file)
    (sameSucceeded : after.succeeded = server.succeeded) (changed : Request)
    (requests : after.requests = server.requests.set index changed)
    (reads : ∀ contents, changed.phase = .hasRead contents false → contents = server.file) : after.Inv := by
  constructor
  · rw [Server.KeepsAll, sameFile, sameSucceeded]
    exact inv.file
  · intro request isRequest contents isReader kind differs
    rw [requests] at isRequest
    rw [sameSucceeded]
    rcases mem_or_eq_of_mem_set isRequest with old | rfl
    · exact inv.readers request old contents isReader kind differs
    · rw [reads contents isReader]
      exact inv.file kind

/-- **One step** of a request that was not overtaken. -/
theorem Server.Inv.advance (inv : server.Inv) (isRequest : server.requests[index]? = some request)
    (fresh : request.overtaken = false) (moves : server.advance index request = some after) : after.Inv := by
  have member := mem_of_getElem? isRequest
  unfold Server.advance at moves
  split at moves
  · cases moves
    exact inv.move rfl rfl _ rfl nofun
  · cases moves
    refine inv.move rfl rfl _ rfl (fun contents reads => ?_)
    cases reads
    rfl
  · rename_i contents overtaken isReader
    have current : request.phase = .hasRead contents false := by
      rw [Request.overtaken, isReader] at fresh
      rw [isReader, show overtaken = false from fresh]
    split at moves
    · rename_i new applies
      cases moves
      constructor
      · exact Keeps.edited (inv.readers request member contents current) applies
      · intro other isOther otherContents otherReads kind differs
        rcases mem_or_eq_of_mem_set isOther with old | rfl
        · obtain ⟨original, isOriginal, rfl⟩ := mem_map.mp old
          obtain ⟨reads, sameKind, sameEdit⟩ := overtake_eq_hasRead otherReads
          rw [sameEdit] at differs
          refine (inv.readers original isOriginal otherContents reads kind differs).append ?_
          rwa [← sameKind]
        · cases otherReads
    · cases moves
      exact inv.move rfl rfl _ rfl nofun
  · cases moves

end Steps

def Server.IsStart (server : Server) : Prop := server.requests = [] ∧ server.succeeded = []

def FreshlyReachable : Server → Prop := Reachable Server.IsStart Server.freshStep

/-- **No update is lost** in a run in which no request writes after one of the other kind
has written since it read: the file shows, for every kind with a success, the value of
a successful request of that kind. -/
theorem updates_kept {server : Server} (reached : FreshlyReachable server) : server.KeepsAll := by
  have inv : server.Inv := by
    refine reached.induct_invariant ?_ ?_
    · rintro start ⟨noRequest, noSuccess⟩ -
      constructor
      · intro kind edit isEdit
        rw [noSuccess] at isEdit
        cases isEdit
      · intro request isRequest
        rw [noRequest] at isRequest
        cases isRequest
    · intro server input after _ _ moves inv
      cases input with
      | arrive edit =>
        cases moves
        refine ⟨inv.file, ?_⟩
        intro request isRequest contents reads
        rcases mem_append.mp isRequest with old | isNew
        · exact inv.readers request old contents reads
        · rw [mem_singleton.mp isNew] at reads
          cases reads
      | advance index =>
        rw [Server.freshStep] at moves
        split at moves
        · cases moves
        · rename_i fresh
          obtain ⟨request, isRequest, advances⟩ := Option.bind_eq_some_iff.mp moves
          rw [isRequest, Option.any_some] at fresh
          exact inv.advance isRequest (Bool.eq_false_iff.mpr fresh) advances
  exact inv.file

def startServer : Server :=
  ⟨"[mcu t]\ncanbus_uuid: a\n\n[mcu]\nserial: /a\n".toList, [], [], []⟩

def boardRequest : Edit := .setSerial "/b".toList (by decide) (by decide) (by decide)
def toolheadRequest : Edit := .setUuid "b".toList (by decide) (by decide) (by decide)

/-- Both requests arrive at once; the second one reads what the first one wrote. -/
theorem updates_kept_inTurn :
    ∃ server, FreshlyReachable server ∧ server.succeeded = [boardRequest, toolheadRequest] ∧ server.KeepsAll := by
  obtain ⟨server, reached, succeeded⟩ := exists_reachable Server.IsStart Server.freshStep startServer ⟨rfl, rfl⟩
    [.arrive boardRequest, .arrive toolheadRequest, .advance 0, .advance 1, .advance 0, .advance 0, .advance 1,
      .advance 1] (fun server => server.succeeded = [boardRequest, toolheadRequest]) (by decide +kernel)
  exact ⟨server, reached, succeeded, updates_kept reached⟩

/-- **A lost update.** Both requests read the file before one of them writes; both report
success, and the file has the old serial device. -/
theorem update_lost :
    ∃ server, Reachable Server.IsStart Server.step server ∧
      (∀ request ∈ server.requests, request.phase = .answered true) ∧
      server.succeeded = [boardRequest, toolheadRequest] ∧ ¬ server.KeepsAll := by
  obtain ⟨server, reached, answered, succeeded, lost⟩ := exists_reachable Server.IsStart Server.step
    startServer ⟨rfl, rfl⟩
    [.arrive boardRequest, .arrive toolheadRequest, .advance 0, .advance 1, .advance 0, .advance 1, .advance 0,
      .advance 1] (fun server => (∀ request ∈ server.requests, request.phase = .answered true) ∧
        server.succeeded = [boardRequest, toolheadRequest] ∧ ¬ Shows server.file boardRequest) (by decide +kernel)
  refine ⟨server, reached, answered, succeeded, ?_⟩
  intro keeps
  obtain ⟨other, isOther, ofKind, shows_⟩ := keeps .serial boardRequest (by rw [succeeded]; exact .head _) rfl
  rw [succeeded, mem_cons, mem_singleton] at isOther
  rcases isOther with rfl | rfl
  · exact lost shows_
  · cases ofKind

end MagnetoX.Manager
