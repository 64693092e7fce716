import Mathlib.Data.List.Nodup
import MagnetoX.Library.Run

/-!
Owns `QueryStatusHelper` of `klippy/webhooks.py`: what the subscribers of the status of
printer objects are sent, and that they can put it together.

A dictionary is the function that looks a key up. The values of `get_status` do not change
once they are returned, and Python's `None` is `none`. An update without any change is not
sent; here it is a message that says nothing. Does not own when the timer runs.
-/

namespace MagnetoX.Host.StatusQuery

open Library.Run List

/-- A result of `get_status`. -/
structure Status (Item Value : Type) where
  keys : List Item
  get : Item → Option Value
  missing : ∀ item, item ∉ keys → get item = none

variable {Conn Obj Item Value : Type}

/-- The items asked for of the objects; `none` asks for all of them. -/
abbrev Subscription (Obj Item : Type) := Obj → Option (Option (List Item))

abbrev Message (Obj Item Value : Type) := Obj → Item → Option (Option Value)

/-- An entry of `clients`. -/
structure Client (Conn Obj Item : Type) where
  conn : Conn
  objects : Subscription Obj Item

/-- The other side of a subscription: what was asked for, what it was answered and sent
since then, and of each object the items that the first result with any has had. -/
structure Subscriber (Conn Obj Item Value : Type) where
  conn : Conn
  request : Subscription Obj Item
  offered : Obj → List Item
  received : List (Message Obj Item Value)

structure QueryStatusHelper (Conn Obj Item Value : Type) where
  clients : List (Client Conn Obj Item)
  /-- The requests, with the connection if they subscribe. -/
  pendingQueries : List (Option Conn × Subscription Obj Item)
  lastQuery : Obj → Option (Status Item Value)
  /-- Subscriptions whose request is completed, but not yet resumed. -/
  completed : List (Client Conn Obj Item × Subscriber Conn Obj Item Value)
  subscribers : List (Subscriber Conn Obj Item Value)
  closed : List Conn

inductive Event (Conn Obj Item Value : Type) where
  | query (objects : Subscription Obj Item)
  | subscribe (conn : Conn) (objects : Subscription Obj Item)
  | doQuery (status : Obj → Status Item Value)
  | resume (index : Nat)
  | close (conn : Conn)

/-- A client puts what it is sent into what it has. -/
def merge (view : Obj → Item → Option Value) (message : Message Obj Item Value) (obj : Obj) (item : Item) :
    Option Value :=
  (message obj item).getD (view obj item)

def merged (messages : List (Message Obj Item Value)) : Obj → Item → Option Value :=
  messages.foldl merge (fun _ _ => none)

section Query

variable (status : Obj → Status Item Value)

/-- `subscription[obj_name] = req_items`, once there are items. -/
def resolve (items : Obj → List Item) (objects : Subscription Obj Item) : Subscription Obj Item := fun obj =>
  (objects obj).map fun
    | some items => some items
    | none => if items obj = [] then none else some (items obj)

def keys (obj : Obj) : List Item := (status obj).keys

def reqItems (objects : Subscription Obj Item) (obj : Obj) : List Item :=
  match objects obj with
  | none => []
  | some none => (status obj).keys
  | some (some items) => items

variable [DecidableEq Conn] [DecidableEq Item] [DecidableEq Value]

def cquery (isQuery : Bool) (lastQuery : Obj → Option (Status Item Value)) (objects : Subscription Obj Item) :
    Message Obj Item Value := fun obj item =>
  let rd := (status obj).get item
  if item ∈ reqItems status objects obj ∧ (isQuery ∨ rd ≠ (lastQuery obj).bind (·.get item)) then some rd else none

def Subscriber.update (live : List (Client Conn Obj Item)) (lastQuery : Obj → Option (Status Item Value))
    (s : Subscriber Conn Obj Item Value) : Subscriber Conn Obj Item Value :=
  { s with
    offered := fun obj => if s.offered obj = [] then keys status obj else s.offered obj
    received := s.received ++
      ((live.find? (·.conn = s.conn)).map (fun client => cquery status false lastQuery client.objects)).toList }

def doQuery (h : QueryStatusHelper Conn Obj Item Value) : QueryStatusHelper Conn Obj Item Value :=
  let live := h.clients.filter (·.conn ∉ h.closed)
  { h with
    clients := live.map fun client => { client with objects := resolve (keys status) client.objects }
    pendingQueries := []
    lastQuery := fun obj =>
      if (h.pendingQueries.map (·.2) ++ live.map (·.objects)).any (fun objects => (objects obj).isSome) then
        some (status obj)
      else none
    completed := h.pendingQueries.filterMap fun (conn, objects) => conn.map fun conn =>
      (⟨conn, resolve (keys status) objects⟩,
        ⟨conn, objects, keys status, [cquery status true h.lastQuery objects]⟩)
    subscribers := h.subscribers.map (Subscriber.update status live h.lastQuery) }

end Query

variable [DecidableEq Conn] [DecidableEq Item] [DecidableEq Value]

/-- One event. A completed request is resumed before the next refresh. -/
def step (h : QueryStatusHelper Conn Obj Item Value) :
    Event Conn Obj Item Value → Option (QueryStatusHelper Conn Obj Item Value)
  | .query objects => some { h with pendingQueries := h.pendingQueries ++ [(none, objects)] }
  | .subscribe conn objects => some { h with
      clients := h.clients.filter (·.conn ≠ conn)
      subscribers := h.subscribers.filter (·.conn ≠ conn)
      pendingQueries := h.pendingQueries ++ [(some conn, objects)] }
  | .doQuery status => if h.completed = [] then some (doQuery status h) else none
  | .resume index => h.completed[index]?.map fun (client, s) => { h with
      clients := h.clients.filter (·.conn ≠ client.conn) ++ [client]
      subscribers := h.subscribers.filter (·.conn ≠ client.conn) ++ [s]
      completed := h.completed.eraseIdx index }
  | .close conn => some { h with closed := conn :: h.closed }

def initial : QueryStatusHelper Conn Obj Item Value := ⟨[], [], fun _ => none, [], [], []⟩

/-- What the subscriber was sent, merged, has the values of the last query for all that
it asked for. -/
def Sees (lastQuery : Obj → Option (Status Item Value)) (s : Subscriber Conn Obj Item Value) : Prop :=
  ∀ obj req, s.request obj = some req → ∃ status, lastQuery obj = some status ∧
    ∀ item, (∀ items ∈ req, item ∈ items) → merged s.received obj item = status.get item

/-- An object of which all items were asked for has no other items with a value than
those of its first result with any. -/
def Covers (lastQuery : Obj → Option (Status Item Value)) (s : Subscriber Conn Obj Item Value) : Prop :=
  ∀ obj status, s.request obj = some none → lastQuery obj = some status →
    ∀ item, status.get item ≠ none → item ∈ s.offered obj

/-- The view of a subscriber: of the items that it is sent, the values of the last query.
While there are none, the object has none. -/
def Shows (lastQuery : Obj → Option (Status Item Value)) (s : Subscriber Conn Obj Item Value) : Prop :=
  ∀ obj req, s.request obj = some req → ∃ status, lastQuery obj = some status ∧
    (s.offered obj = [] → status.keys = []) ∧
    ∀ item, merged s.received obj item = if item ∈ req.getD (s.offered obj) then status.get item else none

variable {status : Obj → Status Item Value} {lastQuery after : Obj → Option (Status Item Value)}
  {s : Subscriber Conn Obj Item Value} {objects : Subscription Obj Item}

omit [DecidableEq Conn] [DecidableEq Value] in
theorem Shows.sees_iff (seen : Shows lastQuery s) : Sees lastQuery s ↔ Covers lastQuery s := by
  constructor
  · intro sees obj status asks isLast item isValue
    obtain ⟨same, isSame, holds⟩ := sees obj none asks
    obtain ⟨other, isOther, -, shows⟩ := seen obj none asks
    cases isSame.symm.trans isLast
    cases isOther.symm.trans isLast
    by_contra notOffered
    exact isValue ((holds item nofun).symm.trans ((shows item).trans (if_neg notOffered)))
  · intro covers obj req asks
    obtain ⟨status, isLast, -, shows⟩ := seen obj req asks
    refine ⟨status, isLast, fun item isItem => ?_⟩
    rw [shows item]
    split
    · rfl
    · rename_i notSent
      cases req with
      | some items => exact absurd (isItem items rfl) notSent
      | none => exact (not_not.mp (fun isValue => notSent (covers obj status asks isLast item isValue))).symm

section Items

variable (status : Obj → Status Item Value) (live : List (Client Conn Obj Item))
  (lastQuery : Obj → Option (Status Item Value))

/-- The items that are asked for in place of the subscriber. -/
theorem reqItems_resolve {obj : Obj} {req : Option (List Item)} (asks : s.request obj = some req) :
    reqItems status (resolve s.offered s.request) obj = req.getD ((s.update status live lastQuery).offered obj) := by
  rw [reqItems, resolve, asks, Option.map_some, Subscriber.update]
  cases req with
  | some items => rfl
  | none => by_cases isEmpty : s.offered obj = [] <;> simp [isEmpty, keys]

/-- They do not change once there are any. -/
theorem items_update (obj : Obj) (req : Option (List Item)) :
    req.getD ((s.update status live lastQuery).offered obj) = req.getD (s.offered obj) ∨
      req.getD (s.offered obj) = [] ∧ s.offered obj = [] := by
  cases req with
  | some items => exact .inl rfl
  | none =>
    by_cases isEmpty : s.offered obj = []
    · exact .inr ⟨isEmpty, isEmpty⟩
    · exact .inl (if_neg isEmpty)

theorem resolve_update :
    resolve (keys status) (resolve s.offered s.request) =
      resolve (s.update status live lastQuery).offered (s.update status live lastQuery).request := by
  funext obj
  simp only [resolve, Subscriber.update, Option.map_map]
  refine Option.map_congr fun req _ => ?_
  cases req with
  | some items => rfl
  | none =>
    by_cases isEmpty : s.offered obj = []
    · simp [isEmpty]
    · simp [isEmpty]

end Items

omit [DecidableEq Conn] in
/-- A completed request. -/
theorem shows_response {conn : Conn}
    (queried : ∀ obj req, objects obj = some req → after obj = some (status obj)) :
    Shows after ⟨conn, objects, keys status, [cquery status true lastQuery objects]⟩ := by
  intro obj req asks
  refine ⟨status obj, queried obj req asks, id, fun item => ?_⟩
  have isReq : reqItems status objects obj = req.getD (keys status obj) := by
    rw [reqItems, show objects obj = some req from asks]
    cases req <;> rfl
  simp only [merged, foldl_cons, foldl_nil, merge, cquery, isReq, true_or, and_true]
  split <;> rfl

/-- **The update of a subscriber**, against what all have asked for last time. -/
theorem Shows.update {live : List (Client Conn Obj Item)} (seen : Shows lastQuery s)
    (isClient : live.find? (·.conn = s.conn) = some ⟨s.conn, resolve s.offered s.request⟩)
    (queried : ∀ obj req, s.request obj = some req → after obj = some (status obj)) :
    Shows after (s.update status live lastQuery) := by
  intro obj req asks
  obtain ⟨last, isLast, wasEmpty, holds⟩ := seen obj req asks
  have merges : merged (s.update status live lastQuery).received =
      merge (merged s.received) (cquery status false lastQuery (resolve s.offered s.request)) := by
    rw [Subscriber.update, isClient, Option.map_some, Option.toList_some, merged, foldl_append]
    rfl
  refine ⟨status obj, queried obj req asks, fun none => ?_, fun item => ?_⟩
  · by_cases isEmpty : s.offered obj = []
    · exact (if_pos isEmpty).symm.trans none
    · exact absurd ((if_neg isEmpty).symm.trans none) isEmpty
  · have asks : s.request obj = some req := asks
    rw [merges, merge, cquery, reqItems_resolve status live lastQuery asks, holds item, isLast,
      Option.bind_some]
    rcases items_update status live lastQuery obj req with same | ⟨nothing, isEmpty⟩
    · rw [same]
      by_cases isItem : item ∈ req.getD (s.offered obj)
      · by_cases changed : (status obj).get item = last.get item <;> simp [isItem, changed]
      · simp [isItem]
    · have noValue : last.get item = none := last.missing item (by simp [wasEmpty isEmpty])
      by_cases isItem : item ∈ req.getD ((s.update status live lastQuery).offered obj)
      · by_cases changed : (status obj).get item = none <;> simp [isItem, nothing, noValue, changed]
      · simp [isItem, nothing]

variable {h next : QueryStatusHelper Conn Obj Item Value}

/-- Every subscriber with an open connection is in the table, with what it asked for as
far as the items are known, and has a consistent view; so has every one whose request is
completed. -/
structure Consistent (h : QueryStatusHelper Conn Obj Item Value) : Prop where
  nodup : (h.clients.map (·.conn)).Nodup
  subscribers : ∀ s ∈ h.subscribers, s.conn ∉ h.closed →
    ⟨s.conn, resolve s.offered s.request⟩ ∈ h.clients ∧ Shows h.lastQuery s
  completed : ∀ entry ∈ h.completed,
    entry.1 = ⟨entry.2.conn, resolve entry.2.offered entry.2.request⟩ ∧ Shows h.lastQuery entry.2

omit [DecidableEq Item] in
/-- The table has one entry for a connection. -/
theorem find?_conn {clients : List (Client Conn Obj Item)} (nodup : (clients.map (·.conn)).Nodup)
    {client : Client Conn Obj Item} (isClient : client ∈ clients) :
    clients.find? (·.conn = client.conn) = some client := by
  cases found : clients.find? (·.conn = client.conn) with
  | none => exact absurd (find?_eq_none.mp found client isClient) (by simp)
  | some other =>
    have sameConn : other.conn = client.conn := by simpa using find?_some found
    rw [inj_on_of_nodup_map nodup (mem_of_find?_eq_some found) isClient sameConn]

theorem Consistent.doQuery (consistent : Consistent h) (status : Obj → Status Item Value) :
    Consistent (doQuery status h) := by
  have liveNodup : ((h.clients.filter (·.conn ∉ h.closed)).map (·.conn)).Nodup :=
    consistent.nodup.sublist (filter_sublist.map _)
  constructor
  · rw [StatusQuery.doQuery, map_map]
    exact liveNodup
  · intro s isSubscriber isOpen
    obtain ⟨old, isOld, rfl⟩ := mem_map.mp isSubscriber
    obtain ⟨isClient, seen⟩ := consistent.subscribers old isOld isOpen
    have isLive : ⟨old.conn, resolve old.offered old.request⟩ ∈ h.clients.filter (·.conn ∉ h.closed) :=
      mem_filter.mpr ⟨isClient, decide_eq_true isOpen⟩
    constructor
    · rw [← resolve_update status]
      exact mem_map.mpr ⟨_, isLive, rfl⟩
    · refine seen.update (find?_conn liveNodup isLive) fun obj req asks => ?_
      exact if_pos (any_eq_true.mpr
        ⟨_, mem_append_right _ (mem_map_of_mem isLive), by simp [resolve, asks]⟩)
  · intro entry isEntry
    obtain ⟨⟨conn, objects⟩, isPending, isEntry⟩ := mem_filterMap.mp isEntry
    obtain ⟨conn, -, rfl⟩ := Option.map_eq_some_iff.mp isEntry
    refine ⟨rfl, shows_response fun obj req asks => ?_⟩
    exact if_pos (any_eq_true.mpr ⟨_, mem_append_left _ (mem_map_of_mem isPending), by simp [asks]⟩)

theorem Consistent.step {event : Event Conn Obj Item Value} (consistent : Consistent h)
    (steps : step h event = some next) : Consistent next := by
  have others : ∀ conn, ((h.clients.filter (·.conn ≠ conn)).map (·.conn)).Nodup :=
    fun conn => consistent.nodup.sublist (filter_sublist.map _)
  have kept : ∀ conn, ∀ s ∈ h.subscribers.filter (·.conn ≠ conn), s.conn ∉ h.closed →
      ⟨s.conn, resolve s.offered s.request⟩ ∈ h.clients.filter (·.conn ≠ conn) ∧ Shows h.lastQuery s := by
    intro conn s isSubscriber isOpen
    obtain ⟨isSubscriber, isOther⟩ := mem_filter.mp isSubscriber
    obtain ⟨isClient, seen⟩ := consistent.subscribers s isSubscriber isOpen
    exact ⟨mem_filter.mpr ⟨isClient, isOther⟩, seen⟩
  cases event with
  | query objects =>
    cases steps
    exact ⟨consistent.nodup, consistent.subscribers, consistent.completed⟩
  | subscribe conn objects =>
    cases steps
    exact ⟨others conn, kept conn, consistent.completed⟩
  | doQuery status =>
    rw [StatusQuery.step] at steps
    split at steps <;> cases steps
    exact consistent.doQuery status
  | resume index =>
    obtain ⟨⟨client, s⟩, isEntry, rfl⟩ := Option.map_eq_some_iff.mp steps
    obtain ⟨isClient, seen⟩ := consistent.completed _ (mem_of_getElem? isEntry)
    constructor
    · rw [map_append, map_singleton, nodup_append]
      refine ⟨others client.conn, nodup_singleton _, ?_⟩
      rintro conn isConn _ isNew rfl
      obtain ⟨old, isOld, rfl⟩ := mem_map.mp isConn
      exact of_decide_eq_true (mem_filter.mp isOld).2 (mem_singleton.mp isNew)
    · intro other isOther isOpen
      rcases mem_append.mp isOther with isOld | isNew
      · exact (kept client.conn other isOld isOpen).imp_left (mem_append_left _)
      · rw [mem_singleton.mp isNew]
        exact ⟨mem_append_right _ (mem_singleton.mpr isClient.symm), seen⟩
    · exact fun entry isEntry => consistent.completed entry (mem_of_mem_eraseIdx isEntry)
  | close conn =>
    cases steps
    refine ⟨consistent.nodup, fun s isSubscriber isOpen => ?_, consistent.completed⟩
    exact consistent.subscribers s isSubscriber (fun isClosed => isOpen (.tail _ isClosed))

/-- **What subscribers see.** Whatever clients subscribe, query and close in whatever
order: a subscriber with an open connection sees the values of the last query for what it
asked for, if and only if no object of which it asked for all items has come to have
others than in its first result with any. -/
theorem subscriber_sees_iff {h : QueryStatusHelper Conn Obj Item Value} (reached : Reachable (· = initial) step h)
    {s : Subscriber Conn Obj Item Value} (isSubscriber : s ∈ h.subscribers) (isOpen : s.conn ∉ h.closed) :
    Sees h.lastQuery s ↔ Covers h.lastQuery s := by
  have consistent : Consistent h := by
    apply reached.induct_invariant
    · rintro _ rfl _
      exact ⟨nodup_nil, nofun, nofun⟩
    · exact fun _ _ _ _ _ steps consistent => consistent.step steps
  exact (consistent.subscribers s isSubscriber isOpen).2.sees_iff

def listed (values : List Nat) : Status Nat Nat where
  keys := range values.length
  get item := values[item]?
  missing item isMissing := getElem?_eq_none (by simpa using isMissing)

def subscribed (later : List Nat) : List (Event Nat Unit Nat Nat) :=
  [.subscribe 1 (fun _ => some none), .doQuery (fun _ => listed [5]), .resume 0, .doQuery (fun _ => listed later)]

/-- The value changes. -/
theorem subscriber_sees_changed : ∃ (h : QueryStatusHelper Nat Unit Nat Nat) (s : Subscriber Nat Unit Nat Nat),
    s ∈ h.subscribers ∧ s.request () = some none ∧ Sees h.lastQuery s ∧ merged s.received () 0 = some 6 := by
  obtain ⟨h, reached, holds⟩ := exists_reachable (· = initial) step initial rfl (subscribed [6])
    (fun h => h.closed = [] ∧ (h.lastQuery ()).map (fun status => status.keys) = some [0] ∧
      ∃ s ∈ h.subscribers, s.request () = some none ∧ s.offered () = [0] ∧ merged s.received () 0 = some 6)
    (by decide +kernel)
  obtain ⟨noneClosed, keys, s, isSubscriber, asks, offered, value⟩ := holds
  refine ⟨h, s, isSubscriber, asks, ?_, value⟩
  rw [subscriber_sees_iff reached isSubscriber (by simp [noneClosed])]
  intro obj status _ isLast item isValue
  rw [isLast] at keys
  rw [offered, ← Option.some.inj keys]
  exact not_not.mp (fun isMissing => isValue (status.missing item isMissing))

/-- An item that comes later is never sent. -/
theorem subscriber_misses_item : ∃ (h : QueryStatusHelper Nat Unit Nat Nat) (s : Subscriber Nat Unit Nat Nat),
    Reachable (· = initial) step h ∧ s ∈ h.subscribers ∧ s.conn ∉ h.closed ∧ s.request () = some none ∧
      (h.lastQuery ()).bind (fun status => status.get 1) = some 7 ∧ merged s.received () 1 = none ∧
      ¬ Sees h.lastQuery s := by
  obtain ⟨h, reached, holds⟩ := exists_reachable (· = initial) step initial rfl (subscribed [6, 7])
    (fun h => h.closed = [] ∧ (h.lastQuery ()).bind (fun status => status.get 1) = some 7 ∧
      ∃ s ∈ h.subscribers, s.request () = some none ∧ merged s.received () 1 = none)
    (by decide +kernel)
  obtain ⟨noneClosed, value, s, isSubscriber, asks, missed⟩ := holds
  refine ⟨h, s, reached, isSubscriber, by simp [noneClosed], asks, value, missed, ?_⟩
  intro sees
  obtain ⟨status, isLast, holds⟩ := sees () none asks
  rw [isLast, Option.bind_some, ← holds 1 nofun, missed] at value
  cases value

end MagnetoX.Host.StatusQuery
