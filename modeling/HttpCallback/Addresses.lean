import Mathlib.Data.List.Basic

/-!
# Opening a socket on the first address that works

`open_clientfd` and `open_listenfd` go through the list that `getaddrinfo` returns. Each address
comes with what the calls made on it come to, and the descriptors of the process are kept with the
socket that each stands for, since a descriptor closed may be handed out again. `Setsockopt`, `Bind`
and `Listen` end the process when the call fails, so `open_listenfd` never gets to the next address
behind a failed `bind`.
-/

namespace HttpCallback

/-- What `setsockopt`, `bind`, `listen` or `connect` comes to. -/
inductive CallEv
  | ok
  | fail
  deriving Repr, DecidableEq

/-- The result of the call. -/
def CallEv.ret : CallEv → Int
  | .ok => 0
  | .fail => -1

/-- A wrapper that calls `unix_error` on a negative result, which does not return. -/
def CallEv.orExit (ev : CallEv) : Option Int := if ev.ret < 0 then none else some ev.ret

/-- How `socket` picks a descriptor, given the ones that are open. -/
structure NewFd where
  pick : List Nat → Nat
  free : ∀ fds, pick fds ∉ fds

/-- An entry of the list, with what the calls on it come to; `socket` may fail. -/
structure Address where
  socket : Option NewFd
  setsockopt : CallEv := .ok
  bind : CallEv := .ok
  listen : CallEv := .ok
  connect : CallEv := .ok

/-- The descriptors of the process. -/
structure Fds where
  /-- The descriptors open, each with the number of its socket. -/
  table : List (Nat × Nat)
  nodup : (table.map Prod.fst).Nodup
  /-- How often `socket` was called. -/
  tried : Nat
  /-- How many sockets were made. -/
  made : Nat
  /-- The sockets closed. -/
  closed : List Nat
  known : ∀ n ∈ table.map Prod.snd ++ closed, n < made

namespace Fds

theorem known_socket {w : Fds} {fd : Nat} :
    ∀ n ∈ ((fd, w.made) :: w.table).map Prod.snd ++ w.closed, n < w.made + 1 := by
  intro n hn
  rcases List.mem_cons.1 hn with rfl | hn
  · exact Nat.lt_succ_self _
  · exact Nat.lt_succ_of_lt (w.known n hn)

theorem known_close {w : Fds} (p : Nat × Nat → Bool) :
    ∀ n ∈ (w.table.eraseP p).map Prod.snd ++
        (w.closed ++ ((w.table.find? p).map Prod.snd).toList), n < w.made := by
  intro n hn
  refine w.known n (List.mem_append.2 ?_)
  rcases List.mem_append.1 hn with hn | hn
  · exact Or.inl ((List.eraseP_sublist.map Prod.snd).subset hn)
  rcases List.mem_append.1 hn with hn | hn
  · exact Or.inr hn
  · obtain ⟨entry, hentry, rfl⟩ := Option.map_eq_some_iff.1 (Option.mem_toList.1 hn)
    exact Or.inl (List.mem_map_of_mem (List.mem_of_find?_eq_some hentry))

/-- `socket` on the next address. -/
def socket (w : Fds) : Option NewFd → Int × Fds
  | none => (-1, { w with tried := w.tried + 1 })
  | some new =>
    (new.pick (w.table.map Prod.fst), {
      table := (new.pick (w.table.map Prod.fst), w.made) :: w.table
      nodup := List.nodup_cons.2 ⟨new.free _, w.nodup⟩
      tried := w.tried + 1
      made := w.made + 1
      closed := w.closed
      known := known_socket })

/-- `close`; on a descriptor that is not open it does nothing. -/
def close (w : Fds) (fd : Int) : Fds where
  table := w.table.eraseP (·.1 = fd)
  nodup := w.nodup.sublist (List.eraseP_sublist.map Prod.fst)
  tried := w.tried
  made := w.made
  closed := w.closed ++ ((w.table.find? (·.1 = fd)).map Prod.snd).toList
  known := known_close _

end Fds

/-- `Setsockopt`. -/
def Address.callSetsockopt (p : Address) : Option Int := p.setsockopt.orExit

/-- `Bind`. -/
def Address.callBind (p : Address) : Option Int := p.bind.orExit

/-- `Listen`. -/
def Address.callListen (p : Address) : Option Int := p.listen.orExit

/-- The loop of `open_clientfd`: the entry `p` it stops at, none for `NULL`, and `clientfd`. -/
def clientLoop : List Address → Int → Fds → Option Address × Int × Fds
  | [], clientfd, w => (none, clientfd, w)
  | p :: listp, _, w =>
    let (clientfd, w) := w.socket p.socket
    if clientfd < 0 then clientLoop listp clientfd w
    else if p.connect.ret ≠ -1 then (some p, clientfd, w)
    else clientLoop listp clientfd (w.close clientfd)

/-- `open_clientfd`, with the list resolved. -/
def openClientfd (listp : List Address) (w : Fds) : Int × Fds :=
  match clientLoop listp 0 w with
  | (none, _, w) => (-1, w)
  | (some _, clientfd, w) => (clientfd, w)

/-- The loop of `open_listenfd`; none when the process exits. -/
def listenLoop : List Address → Int → Fds → Option (Option Address × Int × Fds)
  | [], listenfd, w => some (none, listenfd, w)
  | p :: listp, _, w =>
    let (listenfd, w) := w.socket p.socket
    if listenfd < 0 then listenLoop listp listenfd w
    else do
      let _ ← p.callSetsockopt
      let rval ← p.callBind
      if rval = 0 then some (some p, listenfd, w)
      else listenLoop listp listenfd (w.close listenfd)

/-- `open_listenfd`, with the list resolved; none when the process exits. -/
def openListenfd (listp : List Address) (w : Fds) : Option (Int × Fds) := do
  match ← listenLoop listp 0 w with
  | (none, _, w) => some (-1, w)
  | (some p, listenfd, w) =>
    let rval ← p.callListen
    if rval < 0 then some (-1, w.close listenfd)
    else some (listenfd, w)

/-! ## Addresses that fail -/

/-- How many sockets are made for the addresses. -/
def sockets (listp : List Address) : Nat := listp.countP (·.socket.isSome)

/-- The addresses were tried and nothing came of it: what was opened for them is closed, each
socket once. -/
structure Fds.Passed (w w' : Fds) (listp : List Address) : Prop where
  table : w'.table = w.table
  tried : w'.tried = w.tried + listp.length
  made : w'.made = w.made + sockets listp
  closed : w'.closed = w.closed ++ List.range' w.made (sockets listp)

/-- The last of the addresses was tried with success: its socket is open under `fd`, and the ones
made for the addresses in front are closed, each once. -/
structure Fds.Opened (w w' : Fds) (front : List Address) (p : Address) (fd : Int) : Prop where
  fresh : ∃ new, p.socket = some new ∧ fd = new.pick (w.table.map Prod.fst)
  table : ∃ n : Nat, fd = n ∧ w'.table = (n, w.made + sockets front) :: w.table
  tried : w'.tried = w.tried + front.length + 1
  made : w'.made = w.made + sockets front + 1
  closed : w'.closed = w.closed ++ List.range' w.made (sockets front)

/-- `socket` and `connect` succeed on the address. -/
def Address.Connects (p : Address) : Prop := p.socket.isSome ∧ p.connect = .ok

/-- `socket` and `bind` succeed on the address. -/
def Address.Binds (p : Address) : Prop := p.socket.isSome ∧ p.bind = .ok

section Passed

variable {w w' : Fds} {p : Address} {listp front back : List Address} {fd : Int}

theorem Fds.Passed.nil (w : Fds) : w.Passed w [] :=
  ⟨rfl, rfl, rfl, (List.append_nil _).symm⟩

theorem Fds.Passed.cons_none (hp : p.socket = none)
    (h : (w.socket p.socket).2.Passed w' listp) : w.Passed w' (p :: listp) := by
  have hsockets : sockets (p :: listp) = sockets listp := by simp [sockets, hp]
  rw [hp] at h
  obtain ⟨htable, htried, hmade, hclosed⟩ := h
  refine ⟨htable, ?_, by rw [hsockets, hmade]; rfl, by rw [hsockets, hclosed]; rfl⟩
  rw [htried, List.length_cons]
  simp only [Fds.socket]
  omega

theorem Fds.close_socket (new : NewFd) (w : Fds) :
    ((w.socket (some new)).2.close (w.socket (some new)).1).table = w.table ∧
      ((w.socket (some new)).2.close (w.socket (some new)).1).closed = w.closed ++ [w.made] := by
  simp [Fds.socket, Fds.close]

theorem Fds.Passed.cons_some {new : NewFd} (hp : p.socket = some new)
    (h : ((w.socket p.socket).2.close (w.socket p.socket).1).Passed w' listp) :
    w.Passed w' (p :: listp) := by
  have hsockets : sockets (p :: listp) = sockets listp + 1 := by simp [sockets, hp]
  have hmade' : ((w.socket p.socket).2.close (w.socket p.socket).1).made = w.made + 1 := by
    rw [hp]
    rfl
  have htried' : ((w.socket p.socket).2.close (w.socket p.socket).1).tried = w.tried + 1 := by
    rw [hp]
    rfl
  obtain ⟨htable', hclosed'⟩ := Fds.close_socket new w
  rw [← hp] at htable' hclosed'
  obtain ⟨htable, htried, hmade, hclosed⟩ := h
  refine ⟨htable.trans htable', ?_, ?_, ?_⟩
  · rw [htried, htried', List.length_cons]
    omega
  · rw [hmade, hmade', hsockets]
    omega
  · rw [hclosed, hclosed', hmade', hsockets, List.append_assoc, List.range'_succ]
    rfl

/-- Behind addresses that came to nothing, one for which a socket can be made. -/
theorem Fds.Passed.opened {new : NewFd} (h : w.Passed w' front) (hp : p.socket = some new) :
    w.Opened (w'.socket p.socket).2 front p (w'.socket p.socket).1 := by
  obtain ⟨htable, htried, hmade, hclosed⟩ := h
  rw [hp]
  refine ⟨⟨new, hp, by rw [← htable]; rfl⟩, ⟨_, rfl, ?_⟩, ?_, ?_, hclosed⟩
  · rw [← htable, ← hmade]
    rfl
  · rw [← htried]
    rfl
  · rw [← hmade]
    rfl

theorem Fds.Opened.nonneg (h : w.Opened w' front p fd) : 0 ≤ fd := by
  obtain ⟨new, -, rfl⟩ := h.fresh
  exact Int.natCast_nonneg _

/-- Some address is the first of its kind, or there is none. -/
theorem first_address (P : Address → Prop) (listp : List Address) :
    (∀ p ∈ listp, ¬P p) ∨
      ∃ front p back, listp = front ++ p :: back ∧ (∀ x ∈ front, ¬P x) ∧ P p := by
  classical
  cases hfind : listp.find? (P ·) with
  | none =>
    exact Or.inl fun p hp => by simpa using List.find?_eq_none.1 hfind p hp
  | some p =>
    obtain ⟨hp, front, back, heq, hfront⟩ := List.find?_eq_some_iff_append.1 hfind
    exact Or.inr ⟨front, p, back, heq, fun x hx => by simpa using hfront x hx, by simpa using hp⟩

end Passed

/-! ## Connecting -/

section Connect

variable {listp front back : List Address} {p : Address}

/-- The loop passes addresses that do not connect. -/
theorem clientLoop_front (h : ∀ x ∈ front, ¬x.Connects) (back : List Address) (clientfd : Int)
    (w : Fds) :
    ∃ clientfd' w', clientLoop (front ++ back) clientfd w = clientLoop back clientfd' w' ∧
      w.Passed w' front := by
  induction front generalizing clientfd w with
  | nil => exact ⟨clientfd, w, rfl, .nil w⟩
  | cons p front ih =>
    have hrest := ih fun x hx => h x (List.mem_cons_of_mem p hx)
    rw [List.cons_append, clientLoop]
    cases hp : p.socket with
    | none =>
      obtain ⟨clientfd', w', heq, hpassed⟩ := hrest (w.socket none).1 (w.socket none).2
      refine ⟨clientfd', w', ?_, .cons_none hp (hp ▸ hpassed)⟩
      rw [← heq]
      rfl
    | some new =>
      have hfail : p.connect = .fail := by
        cases hc : p.connect with
        | ok => exact absurd ⟨by rw [hp]; rfl, hc⟩ (h p List.mem_cons_self)
        | fail => rfl
      obtain ⟨clientfd', w', heq, hpassed⟩ := hrest (w.socket (some new)).1
        ((w.socket (some new)).2.close (w.socket (some new)).1)
      refine ⟨clientfd', w', ?_, .cons_some hp (hp ▸ hpassed)⟩
      rw [← heq, hfail]
      rfl

theorem openClientfd_none (h : ∀ x ∈ listp, ¬x.Connects) (w : Fds) :
    (openClientfd listp w).1 = -1 ∧ w.Passed (openClientfd listp w).2 listp := by
  obtain ⟨clientfd, w', heq, hpassed⟩ := clientLoop_front h [] 0 w
  rw [List.append_nil] at heq
  rw [openClientfd, heq]
  exact ⟨rfl, hpassed⟩

theorem openClientfd_some (hfront : ∀ x ∈ front, ¬x.Connects) (hp : p.Connects)
    (back : List Address) (w : Fds) :
    w.Opened (openClientfd (front ++ p :: back) w).2 front p
      (openClientfd (front ++ p :: back) w).1 := by
  obtain ⟨clientfd, w', heq, hpassed⟩ := clientLoop_front hfront (p :: back) 0 w
  obtain ⟨new, hnew⟩ := Option.isSome_iff_exists.1 hp.1
  have hopened := hpassed.opened hnew
  have hstop : clientLoop (p :: back) clientfd w' =
      (some p, (w'.socket p.socket).1, (w'.socket p.socket).2) := by
    rw [clientLoop]
    simp only [if_neg (Int.not_lt.2 hopened.nonneg), hp.2]
    exact if_pos (by decide)
  rw [openClientfd, heq, hstop]
  exact hopened

/-- **`open_clientfd` opens the first address that works.** For every list of addresses and every
outcome of `socket` and `connect` on each: -1 is returned exactly when no address connects, and then
every socket that was made is closed, each once, and the descriptors are the ones before. Otherwise
the descriptor of the first address that connects is returned, no later address is tried, and of the
sockets made all but its own are closed, each once. -/
theorem openClientfd_first (listp : List Address) (w : Fds) :
    ((openClientfd listp w).1 = -1 ↔ ∀ p ∈ listp, ¬p.Connects) ∧
    ((openClientfd listp w).1 = -1 → w.Passed (openClientfd listp w).2 listp) ∧
    ∀ front p back, listp = front ++ p :: back → (∀ x ∈ front, ¬x.Connects) → p.Connects →
      w.Opened (openClientfd listp w).2 front p (openClientfd listp w).1 := by
  have hret : (openClientfd listp w).1 = -1 → ∀ p ∈ listp, ¬p.Connects := by
    intro h
    rcases first_address Address.Connects listp with hnone | ⟨front, p, back, rfl, hfront, hp⟩
    · exact hnone
    · have := (openClientfd_some hfront hp back w).nonneg
      omega
  refine ⟨⟨hret, fun h => (openClientfd_none h w).1⟩, ?_, ?_⟩
  · exact fun h => (openClientfd_none (hret h) w).2
  · rintro front p back rfl hfront hp
    exact openClientfd_some hfront hp back w

end Connect

/-! ## Listening -/

section Listen

variable {listp front back : List Address} {p : Address} {w : Fds}

/-- What `open_listenfd` is for: it listens on the first address that binds, trying the next one
behind a failure, and returns -1 with nothing left open when there is none or `listen` fails. -/
def ListensOnFirst (listp : List Address) (w : Fds) : Prop :=
  ∃ r w', openListenfd listp w = some (r, w') ∧
    ((∀ p ∈ listp, ¬p.Binds) → r = -1 ∧ w.Passed w' listp) ∧
    ∀ front p back, listp = front ++ p :: back → (∀ x ∈ front, ¬x.Binds) → p.Binds →
      (p.listen = .ok → w.Opened w' front p r) ∧
      (p.listen = .fail → r = -1 ∧ w.Passed w' (front ++ [p]))

/-- The loop passes addresses for which there is no socket. -/
theorem listenLoop_front (h : ∀ x ∈ front, x.socket = none) (back : List Address) (listenfd : Int)
    (w : Fds) :
    ∃ listenfd' w', listenLoop (front ++ back) listenfd w = listenLoop back listenfd' w' ∧
      w.Passed w' front := by
  induction front generalizing listenfd w with
  | nil => exact ⟨listenfd, w, rfl, .nil w⟩
  | cons p front ih =>
    have hp := h p List.mem_cons_self
    obtain ⟨listenfd', w', heq, hpassed⟩ :=
      ih (fun x hx => h x (List.mem_cons_of_mem p hx)) (w.socket none).1 (w.socket none).2
    refine ⟨listenfd', w', ?_, .cons_none hp (hp ▸ hpassed)⟩
    rw [List.cons_append, listenLoop, hp, ← heq]
    rfl

/-- The first socket made decides: the process is left to go on only when all three calls succeed on
its address. -/
theorem openListenfd_socket (hfront : ∀ x ∈ front, x.socket = none) (hp : p.socket.isSome)
    (back : List Address) (w : Fds) :
    (p.setsockopt = .ok ∧ p.bind = .ok ∧ p.listen = .ok ∧
      ∃ r w', openListenfd (front ++ p :: back) w = some (r, w') ∧ w.Opened w' front p r) ∨
    (¬(p.setsockopt = .ok ∧ p.bind = .ok ∧ p.listen = .ok) ∧
      openListenfd (front ++ p :: back) w = none) := by
  obtain ⟨listenfd, w', heq, hpassed⟩ := listenLoop_front hfront (p :: back) 0 w
  obtain ⟨new, hnew⟩ := Option.isSome_iff_exists.1 hp
  have hopened := hpassed.opened hnew
  have hloop : listenLoop (p :: back) listenfd w' =
      p.callSetsockopt.bind fun _ => p.callBind.bind fun rval =>
        if rval = 0 then some (some p, (w'.socket p.socket).1, (w'.socket p.socket).2)
        else listenLoop back (w'.socket p.socket).1
          ((w'.socket p.socket).2.close (w'.socket p.socket).1) := by
    rw [listenLoop]
    exact if_neg (Int.not_lt.2 hopened.nonneg)
  rw [openListenfd, heq, hloop, Address.callSetsockopt, Address.callBind]
  cases hset : p.setsockopt with
  | fail => exact Or.inr ⟨fun h => absurd h.1 (by decide), rfl⟩
  | ok =>
    cases hbind : p.bind with
    | fail => exact Or.inr ⟨fun h => absurd h.2.1 (by decide), rfl⟩
    | ok =>
      cases hlisten : p.listen with
      | fail =>
        refine Or.inr ⟨fun h => absurd h.2.2 (by decide), ?_⟩
        change (p.listen.orExit.bind _) = none
        rw [hlisten]
        rfl
      | ok =>
        refine Or.inl ⟨rfl, rfl, rfl, _, _, ?_, hopened⟩
        change (p.listen.orExit.bind _) = _
        rw [hlisten]
        rfl

theorem openListenfd_none (h : ∀ x ∈ listp, x.socket = none) (w : Fds) :
    ∃ w', openListenfd listp w = some (-1, w') ∧ w.Passed w' listp := by
  obtain ⟨listenfd, w', heq, hpassed⟩ := listenLoop_front h [] 0 w
  rw [List.append_nil] at heq
  exact ⟨w', by rw [openListenfd, heq]; rfl, hpassed⟩

/-- The first address that binds is the first for which there is a socket, if that one binds. -/
theorem first_binds {front' back' : List Address} {p' : Address}
    (hfront : ∀ x ∈ front, x.socket = none) (hp : p.Binds)
    (heq : front ++ p :: back = front' ++ p' :: back') (hfront' : ∀ x ∈ front', ¬x.Binds)
    (hp' : p'.Binds) : front = front' ∧ p = p' := by
  rcases List.append_eq_append_iff.1 heq with ⟨as, rfl, has⟩ | ⟨bs, rfl, hbs⟩
  · cases as with
    | nil => exact ⟨(List.append_nil _).symm, (List.cons.inj has).1⟩
    | cons a as =>
      obtain ⟨rfl, -⟩ := List.cons.inj has
      exact absurd hp (hfront' p (List.mem_append_right _ List.mem_cons_self))
  · cases bs with
    | nil => exact ⟨List.append_nil _, (List.cons.inj hbs).1.symm⟩
    | cons b bs =>
      obtain ⟨rfl, -⟩ := List.cons.inj hbs
      have hnone := hfront p' (List.mem_append_right _ List.mem_cons_self)
      have hsome := hp'.1
      rw [hnone] at hsome
      cases hsome

/-- **`open_listenfd` never falls back.** For every list of addresses and every outcome of the
calls: it listens on the first address that binds, or returns -1 with everything closed, if and only
if no socket can be made at all, or on the first address for which one can be made `setsockopt`,
`bind` and `listen` succeed. -/
theorem openListenfd_first_iff (listp : List Address) (w : Fds) :
    ListensOnFirst listp w ↔
      (∀ p ∈ listp, p.socket = none) ∨
      ∃ front p back, listp = front ++ p :: back ∧ (∀ x ∈ front, x.socket = none) ∧
        p.socket.isSome ∧ p.setsockopt = .ok ∧ p.bind = .ok ∧ p.listen = .ok := by
  rcases first_address (·.socket.isSome) listp with hnone | ⟨front, p, back, rfl, hfront, hp⟩
  · have hnone' : ∀ p ∈ listp, p.socket = none := fun p hp => by simpa using hnone p hp
    refine iff_of_true ?_ (Or.inl hnone')
    obtain ⟨w', heq, hpassed⟩ := openListenfd_none hnone' w
    refine ⟨-1, w', heq, fun _ => ⟨rfl, hpassed⟩, ?_⟩
    rintro front p back rfl - hbinds
    exact absurd hbinds.1 (hnone p (List.mem_append_right _ List.mem_cons_self))
  · have hfront' : ∀ x ∈ front, x.socket = none := fun x hx => by simpa using hfront x hx
    rcases openListenfd_socket hfront' hp back w with
      ⟨hset, hbind, hlisten, r, w', heq, hopened⟩ | ⟨hfail, heq⟩
    · refine iff_of_true ?_ (Or.inr ⟨front, p, back, rfl, hfront', hp, hset, hbind, hlisten⟩)
      refine ⟨r, w', heq, ?_, ?_⟩
      · intro h
        exact absurd ⟨hp, hbind⟩ (h p (List.mem_append_right _ List.mem_cons_self))
      · intro front₁ p₁ back₁ hsplit hfront₁ hp₁
        obtain ⟨rfl, rfl⟩ := first_binds hfront' ⟨hp, hbind⟩ hsplit hfront₁ hp₁
        exact ⟨fun _ => hopened, fun h => by rw [hlisten] at h; cases h⟩
    · apply iff_of_false
      · rintro ⟨r, w', hsome, -⟩
        rw [heq] at hsome
        cases hsome
      · rintro (hall | ⟨front₁, p₁, back₁, hsplit, hfront₁, hp₁, hset, hbind, hlisten⟩)
        · have := hall p (List.mem_append_right _ List.mem_cons_self)
          rw [this] at hp
          cases hp
        · rcases openListenfd_socket hfront₁ hp₁ back₁ w with
            ⟨-, -, -, r, w', hsome, -⟩ | ⟨hfail₁, -⟩
          · rw [← hsplit, heq] at hsome
            cases hsome
          · exact hfail₁ ⟨hset, hbind, hlisten⟩

/-- A descriptor above all that are open. -/
def NewFd.above : NewFd where
  pick fds := fds.foldr max 0 + 1
  free fds h := by
    have hle : ∀ n ∈ fds, n ≤ fds.foldr max 0 := by
      clear h
      induction fds with
      | nil => exact List.forall_mem_nil _
      | cons m fds ih =>
        refine List.forall_mem_cons.2 ⟨Nat.le_max_left _ _, fun n hn => ?_⟩
        exact Nat.le_trans (ih n hn) (Nat.le_max_right _ _)
    exact absurd (hle _ h) (by omega)

/-- The port is taken on the first address and free on the second. -/
theorem openListenfd_exits : ¬∀ (listp : List Address) (w : Fds), ListensOnFirst listp w := by
  intro h
  obtain ⟨r, w', heq, -⟩ := h [{ socket := some .above, bind := .fail }, { socket := some .above }]
    ⟨[], List.nodup_nil, 0, 0, [], List.forall_mem_nil _⟩
  cases heq

end Listen

end HttpCallback
