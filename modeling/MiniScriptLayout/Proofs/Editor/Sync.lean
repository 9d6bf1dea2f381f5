import Mathlib.Data.Option.Defs
import Mathlib.Logic.Function.Basic
import MiniScriptLayout.Proofs.Editor.Buffer
import MiniScriptLayout.Server.Store

/-!
An editor and a store side by side. The editor tells what it does with its documents; if it only
changes documents that are open, and only at places that it has, then the store has the same
documents after every event.
-/

namespace MiniScriptLayout

namespace Editor

/-- What an editor tells about a document. -/
inductive Event where
  | opened (d : Document)
  | changed (uri : Uri) (version : Int) (changes : List Change)
  | closed (uri : Uri)
  deriving DecidableEq, Repr

def Event.uri : Event → Uri
  | opened d => d.uri
  | changed uri _ _ => uri
  | closed uri => uri

/-- An open document as the editor has it. -/
structure Copy where
  version : Int
  buffer : Buffer
  deriving DecidableEq, Repr

/-- The editor's copy of the document behind an event. -/
def Event.next (copy : Option Copy) : Event → Option Copy
  | opened d => some ⟨d.version, Utf16.encode d.text⟩
  | changed _ version changes =>
    copy.map fun c => ⟨version, changes.foldl Change.splice c.buffer⟩
  | closed _ => none

/-- Each change may be sent for the buffer that the changes before it left. -/
def AllAllowed : Buffer → List Change → Prop
  | _, [] => True
  | b, change :: changes => change.Allowed b ∧ AllAllowed (change.splice b) changes

instance decidableAllAllowed : (b : Buffer) → (changes : List Change) →
    Decidable (AllAllowed b changes)
  | _, [] => inferInstanceAs (Decidable True)
  | b, change :: changes =>
    have := decidableAllAllowed (change.splice b) changes
    inferInstanceAs (Decidable (_ ∧ _))

/-- Only open documents are changed. -/
def Event.Allowed (copy : Option Copy) : Event → Prop
  | changed _ _ changes => ∃ c ∈ copy, AllAllowed c.buffer changes
  | _ => True

instance (copy : Option Copy) : (event : Event) → Decidable (event.Allowed copy)
  | .opened _ | .closed _ => inferInstanceAs (Decidable True)
  | .changed _ _ changes => inferInstanceAs (Decidable (∃ c ∈ copy, AllAllowed c.buffer changes))

/-- The documents that are open in an editor. -/
abbrev State := Uri → Option Copy

def State.follow (e : State) (event : Event) : State :=
  Function.update e event.uri (event.next (e event.uri))

def State.Allows : State → List Event → Prop
  | _, [] => True
  | e, event :: events => event.Allowed (e event.uri) ∧ (e.follow event).Allows events

instance State.decidableAllows : (e : State) → (events : List Event) → Decidable (e.Allows events)
  | _, [] => inferInstanceAs (Decidable True)
  | e, event :: events =>
    have := State.decidableAllows (e.follow event) events
    inferInstanceAs (Decidable (_ ∧ _))

/-- A document of a store is the editor's copy, and finds the editor's lines and places in it. -/
structure Mirrors (d : Document) (c : Copy) : Prop where
  version : d.version = c.version
  units : Utf16.encode d.text = c.buffer
  lines : d.lines.map Utf16.encode = (Buffer.lines c.buffer).map Prod.fst
  offset : ∀ p, Buffer.Valid p c.buffer →
    Text.unitLength (d.text.take (p.offset d.text)) = Buffer.offset p c.buffer

theorem Mirrors.of_units {d : Document} {c : Copy} (hversion : d.version = c.version)
    (h : Utf16.encode d.text = c.buffer) : Mirrors d c where
  version := hversion
  units := h
  lines := by
    rw [← h, Buffer.lines_encode, Document.lines, List.map_map, List.map_map]
    rfl
  offset := by
    intro p hp
    rw [← h] at hp ⊢
    obtain ⟨q, r, hq, hunits, hoffset⟩ := Position.exists_prefix hp
    rw [hoffset, ← hunits]
    conv => lhs; rw [hq, List.take_left]

theorem encode_foldl_apply {changes : List Change} {text : List Char}
    (h : AllAllowed (Utf16.encode text) changes) :
    Utf16.encode (changes.foldl Change.apply text) =
      changes.foldl Change.splice (Utf16.encode text) := by
  induction changes generalizing text with
  | nil => rfl
  | cons change changes ih =>
      obtain ⟨hchange, hchanges⟩ := h
      have hsplice := Change.encode_apply hchange
      rw [← hsplice] at hchanges
      rw [List.foldl_cons, List.foldl_cons, ih hchanges, hsplice]

theorem Mirrors.apply {d : Document} {c : Copy} {changes : List Change} (h : Mirrors d c)
    (hchanges : AllAllowed c.buffer changes) (version : Int) :
    Mirrors { d.apply changes with version } ⟨version, changes.foldl Change.splice c.buffer⟩ := by
  rw [← h.units] at hchanges ⊢
  exact .of_units rfl (encode_foldl_apply hchanges)

theorem exists_mirrors {o : Option Document} {c : Copy} (h : Option.Rel Mirrors o (some c)) :
    ∃ d, o = some d ∧ Mirrors d c := by
  cases h with
  | some h => exact ⟨_, rfl, h⟩

end Editor

namespace Store

open Editor

variable {w : Surroundings} {s t s' : Store} {d : Document} {uri : Uri} {event : Event}

theorem get?_erase (s : Store) (uri uri' : Uri) :
    (s.erase uri').get? uri = if uri' = uri then none else s.get? uri := by
  rw [get?, erase, List.find?_filter]
  by_cases h : uri' = uri
  · simp [h]
  · rw [if_neg h]
    refine congrFun (congrArg List.find? (funext fun a => ?_)) s.documents
    by_cases ha : a.uri = uri <;> simp [ha, Ne.symm h]

theorem get?_insert (s : Store) (d : Document) (uri : Uri) :
    (s.insert d).get? uri = if d.uri = uri then some d else s.get? uri := by
  by_cases h : d.uri = uri
  · simp [get?, insert, h]
  · have herase := get?_erase s uri d.uri
    rw [if_neg h] at herase ⊢
    rw [← herase]
    simp [get?, insert, h]

theorem uri_of_get? (h : s.get? uri = some d) : d.uri = uri := by
  have hfound := List.find?_some h
  rwa [decide_eq_true_iff] at hfound

/-- What a store makes of an event. -/
def follow (w : Surroundings) (s : Store) : Event → Except FileFault Store
  | .opened d => .ok (s.insert d)
  | .changed uri version changes => s.change w uri version changes
  | .closed uri => .ok (s.erase uri)

def followAll (w : Surroundings) (s : Store) (events : List Event) : Except FileFault Store :=
  events.foldlM (follow w) s

theorem change_eq (s : Store) (w : Surroundings) (uri : Uri) (version : Int)
    (changes : List Change) :
    s.change w uri version changes =
      match s.get? uri with
      | some d => .ok (s.insert { d.apply changes with version })
      | none =>
        (fileText w uri).map fun text => s.insert (.apply ⟨uri, text, version⟩ changes) := by
  rw [change]
  cases s.get? uri with
  | some d => rfl
  | none => cases fileText w uri <;> rfl

/-- What a document is changed to only depends on that document. -/
theorem exists_of_change {version : Int} {changes : List Change}
    (h : s.change w uri version changes = .ok s') :
    ∃ d : Document, d.uri = uri ∧ ∀ t : Store, t.get? uri = s.get? uri →
      t.change w uri version changes = .ok (t.insert d) := by
  rw [change_eq] at h
  cases hget : s.get? uri with
  | some d =>
      have huri : d.uri = uri := uri_of_get? hget
      refine ⟨{ d.apply changes with version }, huri, fun t ht => ?_⟩
      rw [change_eq, ht]
  | none =>
      rw [hget] at h
      cases hfile : fileText w uri with
      | error fault =>
          rw [hfile] at h
          cases h
      | ok text =>
          refine ⟨.apply ⟨uri, text, version⟩ changes, rfl, fun t ht => ?_⟩
          rw [change_eq, ht, hfile]
          rfl

/-- An event gives one document a new state, which only depends on the state of that document. -/
theorem exists_of_follow (h : s.follow w event = .ok s') :
    ∃ o : Option Document, ∀ t : Store, t.get? event.uri = s.get? event.uri →
      ∃ t', t.follow w event = .ok t' ∧
        ∀ uri, t'.get? uri = if event.uri = uri then o else t.get? uri := by
  cases event with
  | opened d => exact ⟨some d, fun t _ => ⟨_, rfl, get?_insert t d⟩⟩
  | closed uri => exact ⟨none, fun t _ => ⟨_, rfl, (get?_erase t · uri)⟩⟩
  | changed uri version changes =>
      obtain ⟨d, rfl, hd⟩ := exists_of_change h
      exact ⟨some d, fun t ht => ⟨_, hd t ht, get?_insert t d⟩⟩

theorem followAll_cons (s : Store) (w : Surroundings) (event : Event) (events : List Event) :
    s.followAll w (event :: events) = s.follow w event >>= (followAll w · events) := by
  rw [followAll, List.foldlM_cons]
  rfl

/-- A document is as the events about it leave it. -/
theorem followAll_filter {events : List Event} (h : s.followAll w events = .ok s')
    (ht : t.get? uri = s.get? uri) :
    ∃ t', t.followAll w (events.filter (·.uri = uri)) = .ok t' ∧ t'.get? uri = s'.get? uri := by
  induction events generalizing s t with
  | nil =>
      cases h
      exact ⟨t, rfl, ht⟩
  | cons event events ih =>
      rw [followAll_cons] at h
      cases hfollow : s.follow w event with
      | error fault =>
          rw [hfollow] at h
          cases h
      | ok s₁ =>
          rw [hfollow] at h
          obtain ⟨o, ho⟩ := exists_of_follow hfollow
          obtain ⟨s₂, hs₂, hget⟩ := ho s rfl
          cases hfollow.symm.trans hs₂
          by_cases huri : event.uri = uri
          · subst huri
            obtain ⟨t₁, ht₁, hget₁⟩ := ho t ht
            obtain ⟨t', hall, hend⟩ := ih (t := t₁) h (by rw [hget, hget₁, if_pos rfl, if_pos rfl])
            refine ⟨t', ?_, hend⟩
            rw [List.filter_cons_of_pos (by simp), followAll_cons, ht₁]
            exact hall
          · rw [List.filter_cons_of_neg (by simpa using huri)]
            exact ih h (by rw [hget, if_neg huri, ht])

/-- One event: the store and the editor still have the same documents. -/
theorem follow_mirrors {e : State} (h : ∀ uri, Option.Rel Mirrors (s.get? uri) (e uri))
    (hevent : event.Allowed (e event.uri)) (w : Surroundings) :
    ∃ s', s.follow w event = .ok s' ∧
      ∀ uri, Option.Rel Mirrors (s'.get? uri) (e.follow event uri) := by
  suffices hnext : ∃ s' o, s.follow w event = .ok s' ∧
      (∀ uri, s'.get? uri = if event.uri = uri then o else s.get? uri) ∧
      Option.Rel Mirrors o (event.next (e event.uri)) by
    obtain ⟨s', o, hfollow, hget, ho⟩ := hnext
    refine ⟨s', hfollow, fun uri => ?_⟩
    rw [hget, State.follow]
    by_cases huri : event.uri = uri
    · subst huri
      rwa [if_pos rfl, Function.update_self]
    · rw [if_neg huri, Function.update_of_ne (Ne.symm huri)]
      exact h uri
  cases event with
  | opened d => exact ⟨_, some d, rfl, get?_insert s d, .some (.of_units rfl rfl)⟩
  | closed uri => exact ⟨_, none, rfl, (get?_erase s · uri), .none⟩
  | changed uri version changes =>
      obtain ⟨c, hc, hchanges⟩ := hevent
      have hcopy : e uri = some c := hc
      obtain ⟨d, hget, hd⟩ := exists_mirrors (hcopy ▸ h uri)
      have huri := uri_of_get? hget
      subst huri
      refine ⟨s.insert { d.apply changes with version }, _, ?_, get?_insert s _, ?_⟩
      · rw [follow, change_eq, hget]
      · rw [Event.next, Event.uri, hcopy]
        exact .some (hd.apply hchanges version)

theorem followAll_mirrors {e : State} {events : List Event}
    (h : ∀ uri, Option.Rel Mirrors (s.get? uri) (e uri)) (hevents : e.Allows events)
    (w : Surroundings) :
    ∃ s', s.followAll w events = .ok s' ∧
      ∀ uri, Option.Rel Mirrors (s'.get? uri) (events.foldl State.follow e uri) := by
  induction events generalizing s e with
  | nil => exact ⟨s, rfl, h⟩
  | cons event events ih =>
      obtain ⟨s₁, hfollow, hmirrors⟩ := follow_mirrors h hevents.1 w
      obtain ⟨s₂, hall, hend⟩ := ih hmirrors hevents.2
      refine ⟨s₂, ?_, hend⟩
      rw [followAll_cons, hfollow]
      exact hall

end Store

/-- After the events of an editor a store has the editor's documents, and each of them as the events
about it alone leave it. -/
theorem store_in_sync {s : Store} (hs : s.documents = []) {events : List Editor.Event}
    (h : Editor.State.Allows (fun _ => none) events) (w : Surroundings) :
    ∃ s', s.followAll w events = .ok s' ∧ ∀ uri,
      Option.Rel Editor.Mirrors (s'.get? uri)
        (events.foldl Editor.State.follow (fun _ => none) uri) ∧
      ∃ t, s.followAll w (events.filter (·.uri = uri)) = .ok t ∧ t.get? uri = s'.get? uri := by
  have hempty : ∀ uri, s.get? uri = none := by
    intro uri
    rw [Store.get?, hs]
    rfl
  have hmirrors : ∀ uri, Option.Rel Editor.Mirrors (s.get? uri) none := by
    intro uri
    rw [hempty]
    exact .none
  obtain ⟨s', hall, hend⟩ := Store.followAll_mirrors hmirrors h w
  exact ⟨s', hall, fun uri => ⟨hend uri, Store.followAll_filter hall rfl⟩⟩

/-- A line feed put in behind a carriage return makes one line break of both. -/
theorem store_in_sync_line_feed :
    let events : List Editor.Event := [.opened ⟨['a'], ['x', '\r', '😀', 'y'], 1⟩,
      .opened ⟨['b'], ['z'], 1⟩,
      .changed ['a'] 2 [.within ⟨⟨1, 2⟩, ⟨1, 3⟩⟩ ['z'], .within ⟨⟨1, 0⟩, ⟨1, 0⟩⟩ ['\n'],
        .within ⟨⟨1, 0⟩, ⟨1, 2⟩⟩ []],
      .closed ['b']]
    Editor.State.Allows (fun _ => none) events ∧
      ∃ s', Store.followAll {} ⟨.ofLocation [], none, []⟩ events = .ok s' ∧ ∀ uri,
        Option.Rel Editor.Mirrors (s'.get? uri)
          (events.foldl Editor.State.follow (fun _ => none) uri) ∧
        ∃ t, Store.followAll {} ⟨.ofLocation [], none, []⟩ (events.filter (·.uri = uri)) = .ok t ∧
          t.get? uri = s'.get? uri := by
  intro events
  have h : Editor.State.Allows (fun _ => none) events := by decide
  exact ⟨h, store_in_sync rfl h {}⟩

end MiniScriptLayout
