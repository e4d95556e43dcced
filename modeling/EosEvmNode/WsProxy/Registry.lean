import EosEvmNode.WsProxy.Requests
import EosEvmNode.Lib.Runs

/-! # The subscription registries

    Every request of a client throws and changes nothing, or adds one
    subscription of its connection, or removes one, or removes all of them
    (`applyOp_cases`).  The limits, the ids and the `run` flag of the monitor are
    invariants of these four. -/

namespace WsProxy

open Runs

/-! ## The registries by kind -/

@[simp] theorem Registries.get_put_self (r : Registries) (subs : Registry)
    (kind : Kind) : (r.put subs kind).get kind = subs := by
  cases kind <;> rfl

theorem Registries.get_put_ne (r : Registries) (subs : Registry) {kind k : Kind}
    (h : k ≠ kind) : (r.put subs kind).get k = r.get k := by
  cases kind <;> cases k <;> first | rfl | exact absurd rfl h

theorem Registries.isEmpty_iff (r : Registries) :
    r.isEmpty = true ↔ ∀ kind, r.get kind = [] := by
  rw [Registries.isEmpty, Bool.and_eq_true, Bool.and_eq_true, List.isEmpty_iff,
    List.isEmpty_iff, List.isEmpty_iff]
  constructor
  · rintro ⟨⟨hheads, hlogs⟩, hmined⟩ kind
    cases kind with
    | newHeads => exact hheads
    | logs => exact hlogs
    | minedTransactions => exact hmined
  · intro h
    exact ⟨⟨h .newHeads, h .logs⟩, h .minedTransactions⟩

theorem Registries.not_isEmpty {r : Registries} {kind : Kind} {sub : SubId × Client}
    (h : sub ∈ r.get kind) : r.isEmpty = false := by
  cases hempty : r.isEmpty with
  | false => rfl
  | true =>
      rw [(r.isEmpty_iff.mp hempty) kind] at h
      cases h

/-- How many subscriptions of a kind a connection may hold. -/
def Limits.max (limits : Limits) : Kind → Nat
  | .newHeads => 1
  | .logs => limits.maxLogsSubsPerConnection
  | .minedTransactions => limits.maxMinedtxSubsPerConnection

@[simp] theorem checkStartMonitor_registries (s : Server) :
    (checkStartMonitor s).registries = s.registries := by
  rw [checkStartMonitor]
  split <;> rfl

@[simp] theorem checkStopMonitor_registries (s : Server) :
    (checkStopMonitor s).registries = s.registries := by
  rw [checkStopMonitor]
  split <;> rfl

theorem checkStartMonitor_run (s : Server) :
    (checkStartMonitor s).monitor.run
      = (s.monitor.run || !s.registries.isEmpty) := by
  rw [checkStartMonitor]
  cases hrun : s.monitor.run <;> cases hempty : s.registries.isEmpty <;>
    simp [hrun, BlockMonitor.start]

theorem checkStopMonitor_run (s : Server) :
    (checkStopMonitor s).monitor.run
      = (s.monitor.run && !s.registries.isEmpty) := by
  rw [checkStopMonitor]
  cases hrun : s.monitor.run <;> cases hempty : s.registries.isEmpty <;>
    simp [hrun, BlockMonitor.stop]

/-! ## What a request does -/

/-- The ids a request draws. -/
def ClientOp.newIds : ClientOp → List SubId
  | .subscribe _ subid _ => [subid]
  | _ => []

/-- The id of a new subscription is in no registry. -/
def Fresh (s : Server) : ClientOp → Prop
  | .subscribe _ subid _ =>
      InsertionMap.has s.registries.newHeadSubs subid = false ∧
      InsertionMap.has s.registries.logsSubs subid = false ∧
      InsertionMap.has s.registries.minedTransactionsSubs subid = false
  | _ => True

instance (s : Server) (op : ClientOp) : Decidable (Fresh s op) := by
  unfold Fresh
  cases op <;> infer_instance

theorem Fresh.not_has {s : Server} {ws : Ws} {subid : SubId} {data : Json}
    (h : Fresh s (.subscribe ws subid data)) (kind : Kind) :
    InsertionMap.has (s.registries.get kind) subid = false := by
  cases kind with
  | newHeads => exact h.1
  | logs => exact h.2.1
  | minedTransactions => exact h.2.2

/-- The four ways a request ends. -/
inductive Applied (limits : Limits) (s : Server) (op : ClientOp) :
    Server → Reply → Prop where
  | thrown (e : JsError) : Applied limits s op s (.thrown e)
  | added (kind : Kind) (subid : SubId) (client : Client) :
      (∃ data, op = .subscribe op.ws subid data) → client.ws = op.ws →
      ((s.registries.get kind).of op.ws).length < limits.max kind →
      Applied limits s op (checkStartMonitor { s with
        registries := s.registries.put
          (InsertionMap.set (s.registries.get kind) subid client) kind })
        (.subscribed subid)
  | deleted (kind : Kind) (subid : SubId) (client : Client) :
      InsertionMap.get (s.registries.get kind) subid = some client →
      client.ws = op.ws →
      Applied limits s op (checkStopMonitor { s with
        registries := s.registries.put
          (InsertionMap.delete (s.registries.get kind) subid) kind })
        .unsubscribed
  | disconnected : Applied limits s op (handleDisconnect s op.ws) .closed

section Apply

variable {toLowerCase : String → String} {limits : Limits} {s s' : Server}
  {op : ClientOp} {reply : Reply}

theorem register_applied {kind : Kind} {full : Bool} {message : String}
    {ws : Ws} {subid : SubId} {data : Json} {client : Client} (hws : client.ws = ws)
    (hfull : full = false → ((s.registries.get kind).of ws).length < limits.max kind)
    (h : answer (register kind full message s subid client) (.subscribed subid)
      = (s', reply)) : Applied limits s (.subscribe ws subid data) s' reply := by
  cases full with
  | true =>
      obtain ⟨rfl, rfl⟩ := Prod.mk.inj h
      exact .thrown _
  | false =>
      obtain ⟨rfl, rfl⟩ := Prod.mk.inj h
      exact .added kind subid client ⟨data, rfl⟩ hws (hfull rfl)

/-- **What a request does.** -/
theorem applyOp_cases (h : applyOp toLowerCase limits s op = (s', reply)) :
    Applied limits s op s' reply := by
  cases op with
  | subscribe ws subid data =>
      rw [applyOp] at h
      cases hcheck : checkSubscribe toLowerCase data with
      | error e =>
          rw [hcheck] at h
          obtain ⟨rfl, rfl⟩ := Prod.mk.inj h
          exact .thrown e
      | ok request =>
          rw [hcheck] at h
          cases request with
          | newHeads =>
              refine register_applied rfl ?_ h
              intro hnone
              show (s.registries.newHeadSubs.of ws).length < 1
              rw [Registry.of, List.length_eq_zero_iff.mpr, Nat.lt_one_iff]
              exact List.filter_eq_nil_iff.mpr (by simpa using hnone)
          | logs filter =>
              refine register_applied rfl ?_ h
              intro hroom
              exact Nat.lt_of_not_le (of_decide_eq_false hroom)
          | minedTransactions filter =>
              refine register_applied rfl ?_ h
              intro hroom
              exact Nat.lt_of_not_le (of_decide_eq_false hroom)
  | unsubscribe ws data =>
      rw [applyOp] at h
      cases hcheck : checkUnsubscribe data with
      | error e =>
          rw [hcheck] at h
          obtain ⟨rfl, rfl⟩ := Prod.mk.inj h
          exact .thrown e
      | ok id =>
          rw [hcheck] at h
          cases id with
          | str subid =>
              simp only [handleUnsubscribe] at h
              -- the id is looked up first, then in its registry, then the owner is checked
              cases hmap : subscriptionMap s.registries subid with
              | none =>
                  rw [hmap] at h
                  obtain ⟨rfl, rfl⟩ := Prod.mk.inj h
                  exact .thrown _
              | some kind =>
                  rw [hmap] at h
                  cases hget : InsertionMap.get (s.registries.get kind) subid with
                  | none =>
                      simp only [hget] at h
                      obtain ⟨rfl, rfl⟩ := Prod.mk.inj h
                      exact .thrown _
                  | some client =>
                      simp only [hget] at h
                      by_cases hws : client.ws = ws
                      · rw [if_neg (fun hne => hne hws)] at h
                        obtain ⟨rfl, rfl⟩ := Prod.mk.inj h
                        exact .deleted kind subid client hget hws
                      · rw [if_pos hws] at h
                        obtain ⟨rfl, rfl⟩ := Prod.mk.inj h
                        exact .thrown _
          | _ =>
              obtain ⟨rfl, rfl⟩ := Prod.mk.inj h
              exact .thrown _
  | disconnect ws =>
      obtain ⟨rfl, rfl⟩ := Prod.mk.inj h
      exact .disconnected

end Apply

/-! ## The invariant -/

/-- What holds between the requests of clients. -/
structure RegistryInv (limits : Limits) (s : Server) : Prop where
  bounded : ∀ kind ws, ((s.registries.get kind).of ws).length ≤ limits.max kind
  distinct : ∀ kind, ((s.registries.get kind).map Prod.fst).Nodup
  /-- An id is in one registry at most. -/
  one_kind : ∀ k k' subid, InsertionMap.has (s.registries.get k) subid = true →
    InsertionMap.has (s.registries.get k') subid = true → k = k'
  running : s.monitor.run = !s.registries.isEmpty

theorem registryInv_init (limits : Limits) : RegistryInv limits Server.init where
  bounded := by
    intro kind ws
    cases kind <;> exact Nat.zero_le _
  distinct := by
    intro kind
    cases kind <;> exact List.nodup_nil
  one_kind := by
    intro k k' subid h
    cases k <;> cases h
  running := rfl

section Invariant

variable {limits : Limits} {s s' : Server} {op : ClientOp} {reply : Reply}

theorem has_append {subs : Registry} {subid x : SubId} {client : Client}
    (h : InsertionMap.has (subs ++ [(subid, client)]) x = true) :
    InsertionMap.has subs x = true ∨ x = subid := by
  obtain ⟨v, hv⟩ := InsertionMap.has_eq_true.mp h
  rcases List.mem_append.mp hv with hmem | hmem
  · exact Or.inl (InsertionMap.has_eq_true.mpr ⟨v, hmem⟩)
  · exact Or.inr (Prod.mk.inj (List.mem_singleton.mp hmem)).1

/-- A smaller registry keeps the invariant. -/
theorem RegistryInv.shrink (h : RegistryInv limits s) {r : Registries}
    (hsub : ∀ kind, (r.get kind).Sublist (s.registries.get kind))
    (hrun : s.registries.isEmpty = true → r.isEmpty = true) :
    RegistryInv limits (checkStopMonitor { s with registries := r }) where
  bounded := by
    intro kind ws
    rw [checkStopMonitor_registries]
    exact Nat.le_trans (List.Sublist.length_le ((hsub kind).filter _))
      (h.bounded kind ws)
  distinct := by
    intro kind
    rw [checkStopMonitor_registries]
    exact List.Nodup.sublist ((hsub kind).map _) (h.distinct kind)
  one_kind := by
    intro k k' subid hk hk'
    rw [checkStopMonitor_registries] at hk hk'
    obtain ⟨v, hv⟩ := InsertionMap.has_eq_true.mp hk
    obtain ⟨v', hv'⟩ := InsertionMap.has_eq_true.mp hk'
    exact h.one_kind k k' subid
      (InsertionMap.has_eq_true.mpr ⟨v, (hsub k).subset hv⟩)
      (InsertionMap.has_eq_true.mpr ⟨v', (hsub k').subset hv'⟩)
  running := by
    rw [checkStopMonitor_run, checkStopMonitor_registries]
    show (s.monitor.run && !r.isEmpty) = !r.isEmpty
    rw [h.running]
    cases hempty : s.registries.isEmpty with
    | false => rfl
    | true => rw [hrun hempty]; rfl

/-- A new subscription keeps it, where there is room. -/
theorem RegistryInv.add (h : RegistryInv limits s) {kind : Kind} {subid : SubId}
    {client : Client}
    (hfresh : ∀ k, InsertionMap.has (s.registries.get k) subid = false)
    (hroom : ((s.registries.get kind).of client.ws).length < limits.max kind) :
    RegistryInv limits (checkStartMonitor { s with
      registries := s.registries.put
        (InsertionMap.set (s.registries.get kind) subid client) kind }) := by
  rw [InsertionMap.set_of_new (hfresh kind)]
  refine ⟨?_, ?_, ?_, ?_⟩
  · intro k ws
    rw [checkStartMonitor_registries]
    by_cases hk : k = kind
    · subst hk
      rw [Registries.get_put_self, Registry.of, List.filter_append, List.length_append]
      by_cases hws : client.ws = ws
      · subst hws
        rw [List.filter_cons_of_pos (by simp), List.filter_nil]
        exact hroom
      · rw [List.filter_cons_of_neg (by simpa using hws), List.filter_nil]
        exact h.bounded k ws
    · rw [Registries.get_put_ne _ _ hk]
      exact h.bounded k ws
  · intro k
    rw [checkStartMonitor_registries]
    by_cases hk : k = kind
    · subst hk
      rw [Registries.get_put_self, List.map_append]
      refine List.Nodup.append (h.distinct k) (List.nodup_singleton _) ?_
      intro x hx hx'
      obtain rfl : x = subid := List.mem_singleton.mp hx'
      obtain ⟨p, hp, rfl⟩ := List.mem_map.mp hx
      have hhas := InsertionMap.has_eq_true.mpr ⟨p.2, hp⟩
      rw [hfresh k] at hhas
      cases hhas
    · rw [Registries.get_put_ne _ _ hk]
      exact h.distinct k
  · intro k k' x hk hk'
    rw [checkStartMonitor_registries] at hk hk'
    -- an id in a registry is the new one there, or an old one
    have hold : ∀ {k}, InsertionMap.has ((s.registries.put
        (s.registries.get kind ++ [(subid, client)]) kind).get k) x = true →
        InsertionMap.has (s.registries.get k) x = true ∨ (x = subid ∧ k = kind) := by
      intro k hhas
      by_cases heq : k = kind
      · subst heq
        rw [Registries.get_put_self] at hhas
        rcases has_append hhas with hin | hnew
        · exact Or.inl hin
        · exact Or.inr ⟨hnew, rfl⟩
      · rw [Registries.get_put_ne _ _ heq] at hhas
        exact Or.inl hhas
    rcases hold hk with hin | ⟨hx, heq⟩
    · rcases hold hk' with hin' | ⟨hx', -⟩
      · exact h.one_kind k k' x hin hin'
      · rw [hx', hfresh] at hin
        cases hin
    · rcases hold hk' with hin' | ⟨-, heq'⟩
      · rw [hx, hfresh] at hin'
        cases hin'
      · exact heq.trans heq'.symm
  · rw [checkStartMonitor_run, checkStartMonitor_registries]
    have hne : (s.registries.put
        (s.registries.get kind ++ [(subid, client)]) kind).isEmpty = false := by
      have hmem : (subid, client) ∈ (s.registries.put
          (s.registries.get kind ++ [(subid, client)]) kind).get kind := by simp
      exact Registries.not_isEmpty hmem
    rw [hne]
    simp

theorem RegistryInv.step (h : RegistryInv limits s) (hfresh : Fresh s op)
    (happ : Applied limits s op s' reply) : RegistryInv limits s' := by
  cases happ with
  | thrown e => exact h
  | added kind subid client hop hws hroom =>
      obtain ⟨data, hop⟩ := hop
      rw [hop] at hfresh
      exact h.add hfresh.not_has (hws ▸ hroom)
  | deleted kind subid client hget hws =>
      refine h.shrink ?_ ?_
      · intro k
        by_cases hk : k = kind
        · subst hk
          rw [Registries.get_put_self]
          exact List.filter_sublist
        · rw [Registries.get_put_ne _ _ hk]
      · intro hempty
        have hmem := InsertionMap.mem_of_get hget
        rw [(s.registries.isEmpty_iff.mp hempty) kind] at hmem
        cases hmem
  | disconnected =>
      refine h.shrink ?_ ?_
      · intro k
        cases k <;> exact List.filter_sublist
      · intro hempty
        have hnil := s.registries.isEmpty_iff.mp hempty
        refine (Registries.isEmpty_iff _).mpr fun k => ?_
        cases k with
        | newHeads => exact congrArg (Registry.without op.ws) (hnil .newHeads)
        | logs => exact congrArg (Registry.without op.ws) (hnil .logs)
        | minedTransactions =>
            exact congrArg (Registry.without op.ws) (hnil .minedTransactions)

end Invariant

/-! ## Frame conditions -/

/-- What a request may change. -/
structure OpSpec (s : Server) (op : ClientOp) (s' : Server) (reply : Reply) :
    Prop where
  /-- A request that throws changes nothing. -/
  thrown : ∀ e, reply = .thrown e → s' = s
  /-- An answer with an id has registered that id, for the connection. -/
  subscribed : ∀ subid, reply = .subscribed subid → ∃ kind client,
    client.ws = op.ws ∧ s'.registries
      = s.registries.put (s.registries.get kind ++ [(subid, client)]) kind
  /-- Nothing of another connection is added, removed or altered. -/
  others : ∀ ws, ws ≠ op.ws → ∀ kind,
    (s'.registries.get kind).of ws = (s.registries.get kind).of ws
  /-- A disconnect removes exactly the connection's subscriptions. -/
  disconnected : reply = .closed → ∀ kind,
    s'.registries.get kind = (s.registries.get kind).without op.ws

section Frame

variable {limits : Limits} {s s' : Server} {op : ClientOp} {reply : Reply}

theorem of_append_ne {subs : Registry} {subid : SubId} {client : Client} {ws : Ws}
    (h : client.ws ≠ ws) : (subs ++ [(subid, client)] : Registry).of ws = subs.of ws := by
  rw [Registry.of, List.filter_append, List.filter_cons_of_neg (by simpa using h),
    List.filter_nil, List.append_nil]
  rfl

theorem of_delete_ne {subs : Registry} (hsubs : (subs.map Prod.fst).Nodup)
    {subid : SubId} {client : Client} (hget : InsertionMap.get subs subid = some client)
    {ws : Ws} (h : client.ws ≠ ws) :
    Registry.of ws (InsertionMap.delete subs subid) = subs.of ws := by
  rw [Registry.of, InsertionMap.delete, List.filter_filter]
  refine List.filter_congr ?_
  rintro ⟨k, c⟩ hmem
  by_cases hk : k = subid
  · subst hk
    have hc : some client = some c := hget.symm.trans (InsertionMap.get_of_mem hsubs hmem)
    obtain rfl := Option.some.inj hc
    simp [h]
  · simp [hk]

theorem of_without_ne {subs : Registry} {ws ws' : Ws} (h : ws' ≠ ws) :
    Registry.of ws' (subs.without ws) = subs.of ws' := by
  rw [Registry.of, Registry.without, List.filter_filter]
  refine List.filter_congr ?_
  rintro ⟨k, c⟩ -
  by_cases hc : c.ws = ws'
  · simp [hc, h]
  · simp [hc]

theorem handleDisconnect_get (s : Server) (ws : Ws) (kind : Kind) :
    (handleDisconnect s ws).registries.get kind
      = (s.registries.get kind).without ws := by
  rw [handleDisconnect, checkStopMonitor_registries]
  cases kind <;> rfl

theorem RegistryInv.spec (h : RegistryInv limits s) (hfresh : Fresh s op)
    (happ : Applied limits s op s' reply) : OpSpec s op s' reply := by
  cases happ with
  | thrown e =>
      exact ⟨fun _ _ => rfl, fun _ hr => (by cases hr), fun _ _ _ => rfl,
        fun hr => (by cases hr)⟩
  | added kind subid client hop hws hroom =>
      obtain ⟨data, hop⟩ := hop
      rw [hop] at hfresh
      have hset := InsertionMap.set_of_new (hfresh.not_has kind) client
      refine ⟨fun _ hr => (by cases hr), ?_, ?_, fun hr => (by cases hr)⟩
      · intro x hx
        obtain rfl := Reply.subscribed.inj hx
        exact ⟨kind, client, hws, by rw [checkStartMonitor_registries, hset]⟩
      · intro ws hne k
        rw [checkStartMonitor_registries, hset]
        by_cases hk : k = kind
        · subst hk
          rw [Registries.get_put_self, of_append_ne (fun heq => hne (heq.symm.trans hws))]
        · rw [Registries.get_put_ne _ _ hk]
  | deleted kind subid client hget hws =>
      refine ⟨fun _ hr => (by cases hr), fun _ hr => (by cases hr), ?_,
        fun hr => (by cases hr)⟩
      intro ws hne k
      rw [checkStopMonitor_registries]
      by_cases hk : k = kind
      · subst hk
        rw [Registries.get_put_self,
          of_delete_ne (h.distinct k) hget (fun heq => hne (heq.symm.trans hws))]
      · rw [Registries.get_put_ne _ _ hk]
  | disconnected =>
      refine ⟨fun _ hr => (by cases hr), fun _ hr => (by cases hr), ?_, ?_⟩
      · intro ws hne k
        rw [handleDisconnect_get, of_without_ne hne]
      · intro _ kind
        exact handleDisconnect_get s op.ws kind

/-- A request adds no subscription but one with its new id, of its connection. -/
theorem Applied.registered (happ : Applied limits s op s' reply) {kind : Kind}
    {sub : SubId × Client} (hsub : sub ∈ s'.registries.get kind) :
    sub ∈ s.registries.get kind ∨ (sub.1 ∈ op.newIds ∧ sub.2.ws = op.ws) := by
  cases happ with
  | thrown e => exact Or.inl hsub
  | added k subid client hop hws hroom =>
      -- the new id goes into one registry
      obtain ⟨data, hop⟩ := hop
      rw [checkStartMonitor_registries] at hsub
      by_cases hk : kind = k
      · subst hk
        rw [Registries.get_put_self] at hsub
        rcases InsertionMap.mem_of_mem_set hsub with hold | rfl
        · exact Or.inl hold
        · refine Or.inr ⟨?_, hws⟩
          rw [hop]
          exact List.mem_cons_self
      · rw [Registries.get_put_ne _ _ hk] at hsub
        exact Or.inl hsub
  | deleted k subid client hget hws =>
      rw [checkStopMonitor_registries] at hsub
      by_cases hk : kind = k
      · subst hk
        rw [Registries.get_put_self] at hsub
        exact Or.inl (InsertionMap.mem_delete.mp hsub).1
      · rw [Registries.get_put_ne _ _ hk] at hsub
        exact Or.inl hsub
  | disconnected =>
      rw [handleDisconnect_get] at hsub
      exact Or.inl (List.mem_of_mem_filter hsub)

theorem applyOp_applied (toLowerCase : String → String) (limits : Limits) (s : Server)
    (op : ClientOp) : Applied limits s op (applyOp toLowerCase limits s op).1
      (applyOp toLowerCase limits s op).2 :=
  applyOp_cases rfl

end Frame

/-- The state after a request. -/
def serverStep (toLowerCase : String → String) (limits : Limits) (s : Server)
    (op : ClientOp) : Except JsError Server :=
  .ok (applyOp toLowerCase limits s op).1

/-- **The registry invariants**, after every sequence of requests with fresh
    ids, and what the next request may do. -/
theorem registry_invariants {toLowerCase : String → String} {limits : Limits}
    {ops : List ClientOp} {s : Server}
    (hrun : Reach (serverStep toLowerCase limits) Fresh Server.init ops s) :
    RegistryInv limits s ∧ ∀ op, Fresh s op →
      OpSpec s op (applyOp toLowerCase limits s op).1
        (applyOp toLowerCase limits s op).2 := by
  have h : RegistryInv limits s :=
    hrun.invariant (P := RegistryInv limits) (registryInv_init limits)
      (fun s op s' hs hfresh hstep => by
        rw [← Except.ok.inj hstep]
        exact hs.step hfresh (applyOp_cases rfl))
  exact ⟨h, fun op hfresh => h.spec hfresh (applyOp_cases rfl)⟩

/-- An `eth_subscribe` request. -/
def plainSubscribe (params : List Json) : Json :=
  .obj [("method", .str "eth_subscribe"), ("params", .arr params)]

theorem registry_invariants_plain :
    ∃ s, Reach (serverStep id ⟨1, 1⟩) Fresh Server.init
        [.subscribe 1 "a" (plainSubscribe [.str "newHeads"]),
          .subscribe 2 "b" (plainSubscribe [.str "logs"]),
          .subscribe 2 "c" (plainSubscribe [.str "logs"]),
          .disconnect 1] s ∧
      RegistryInv ⟨1, 1⟩ s := by
  have hcheck : checkRun (serverStep id ⟨1, 1⟩) Fresh Server.init
      [.subscribe 1 "a" (plainSubscribe [.str "newHeads"]),
        .subscribe 2 "b" (plainSubscribe [.str "logs"]),
        .subscribe 2 "c" (plainSubscribe [.str "logs"]),
        .disconnect 1] = true := by decide +kernel
  obtain ⟨s, hs⟩ := exists_reach hcheck
  exact ⟨s, hs, (registry_invariants hs).1⟩

end WsProxy
