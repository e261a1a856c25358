/-
What the shared cache gives to whom.

A stored response can be traced back to the upstream exchange it was built from:
both writers store under the key of the request they have just made, and only if
request and response are fit for sharing.  The key of a request determines its
target and its folded header map, because the variant has no U+0000 in it and the
last separator can be found again.
-/
import AdaptiveGateway.Proxy.Cache

namespace AdaptiveGateway
namespace Proxy
namespace Cache

open Codec Concurrent

/-! ## Keys -/

theorem plainElems_pairs (ps : List (Text × Text)) : Json.PlainElems (ps.map pairJson) := by
  induction ps with
  | nil => trivial
  | cons p ps ih => exact ⟨⟨trivial, trivial, trivial⟩, ih⟩

theorem plain_pairs (ps : List (Text × Text)) : (Json.arr (ps.map pairJson)).Plain :=
  plainElems_pairs ps

theorem pairJson_injective : Function.Injective pairJson := by
  rintro ⟨a, b⟩ ⟨c, d⟩ h
  simp only [pairJson, Json.arr.injEq, List.cons.injEq, Json.str.injEq, and_true] at h
  rw [h.1, h.2]

/-- The variant determines the folded header map. -/
theorem folded_perm_of_variant_eq {h h' : Dict Text Text} (heq : variant h = variant h') :
    (folded h).Perm (folded h') := by
  have hjson := Json.dumps_injective (plain_pairs _) (plain_pairs _) heq
  have hsorted := List.map_injective_iff.mpr pairJson_injective (Json.arr.inj hjson)
  have hperm := List.perm_insertionSort (fun p q => pairLe p q = true) (folded h)
  rw [hsorted] at hperm
  exact hperm.symm.trans (List.perm_insertionSort _ _)

theorem nul_not_mem_variant (h : Dict Text Text) : '\x00' ∉ variant h := by
  intro hmem
  have hprintable : Json.Printable '\x00' :=
    Json.printable_dumps _ (plain_pairs _) _ hmem
  exact absurd hprintable (by decide)

/-- A text can be cut at its last U+0000 in one way only. -/
theorem split_last_nul {a b v w : Text} (hv : '\x00' ∉ v) (hw : '\x00' ∉ w)
    (h : a ++ '\x00' :: v = b ++ '\x00' :: w) : a = b ∧ v = w := by
  have hcut : ∀ {v w c : Text}, '\x00' ∉ v → '\x00' :: v = c ++ '\x00' :: w → c = [] ∧ v = w := by
    intro v w c hv hc
    cases c with
    | nil => exact ⟨rfl, (List.cons.inj hc).2⟩
    | cons x c =>
      have hmem : '\x00' ∈ c ++ '\x00' :: w := List.mem_append_right c List.mem_cons_self
      have hvc : v = c ++ '\x00' :: w := (List.cons.inj hc).2
      exact absurd (hvc ▸ hmem) hv
  rcases List.append_eq_append_iff.mp h with ⟨c, hb, hvw⟩ | ⟨c, ha, hwv⟩
  · obtain ⟨rfl, rfl⟩ := hcut hv hvw
    exact ⟨by simp [hb], rfl⟩
  · obtain ⟨rfl, rfl⟩ := hcut hw hwv
    exact ⟨by simp [ha], rfl⟩

/-- Equal keys belong to equal targets and equal folded header maps. -/
theorem cacheKey_determines {lib : Libraries} (hsha : Function.Injective lib.sha256)
    {t t' : Text} {h h' : Dict Text Text} (heq : cacheKey lib t h = cacheKey lib t' h') :
    t = t' ∧ (folded h).Perm (folded h') := by
  unfold cacheKey buildCacheKey at heq
  have hpre := utf8_injective (hsha (List.append_cancel_left heq))
  obtain ⟨hhead, hvariant⟩ :=
    split_last_nul (nul_not_mem_variant h) (nul_not_mem_variant h') hpre
  refine ⟨?_, folded_perm_of_variant_eq hvariant⟩
  have htarget := List.append_cancel_left (List.append_cancel_right hhead)
  exact (List.cons.inj htarget).2

/-! ## The invariant -/

section

variable (cfg : Config) (lib : Libraries) (gets : Nat → GetCall)

/-- The envelope was built from an exchange that may be shared, under the key of
its request. -/
def Sourced (s : World) (key : Text) (e : CachedResponse) : Prop :=
  ∃ x ∈ s.exchanges, ∃ up freshFor now, x.call = (gets x.read).call ∧
    (gets x.read).cacheable = true ∧ key = (gets x.read).key lib ∧
    boundedResponse cfg x.answer = .ok up ∧ responseCacheable up = true ∧
    e = .build up freshFor now

/-- A refresh job repeats the request of the read that started it. -/
structure JobOf (g : GetCall) (job : RefreshJob) : Prop where
  cacheable : g.cacheable = true
  key : job.key = g.key lib
  call : (⟨"GET", job.url, job.headers, []⟩ : Call) = g.call

structure Shelf (s : World) : Prop where
  stored : ∀ key v, s.cache key = some v →
    ∃ e, v.value = lib.modelDumpJson e ∧ Sourced cfg lib gets s key e
  jobs : ∀ n job, s.jobs n = some job → JobOf lib (gets n) job

/-- What the invariant asks of a command. -/
def Permitted (i : Thread) (s : World) : Cmd → Prop
  | .set key value _ => ∃ e, value = lib.modelDumpJson e ∧ Sourced cfg lib gets s key e
  | .spawn job => JobOf lib (gets i.read) job
  | _ => True

end

section

variable {cfg : Config} {lib : Libraries} {gets : Nat → GetCall} {i : Thread} {s s' t : World}

theorem Sourced.mono {key : Text} {e : CachedResponse} (h : Sourced cfg lib gets s key e)
    (hsub : s.exchanges ⊆ t.exchanges) : Sourced cfg lib gets t key e := by
  obtain ⟨x, hx, hrest⟩ := h
  exact ⟨x, hsub hx, hrest⟩

theorem shelf_start : Shelf cfg lib gets {} :=
  ⟨fun _ _ h => (by cases h), fun _ _ h => (by cases h)⟩

/-- Entries may go, and the history may grow. -/
theorem Shelf.shrink (hs : Shelf cfg lib gets s) (hsub : s.exchanges ⊆ t.exchanges)
    (hcache : ∀ key v, t.cache key = some v → s.cache key = some v) (hjobs : t.jobs = s.jobs) :
    Shelf cfg lib gets t := by
  refine ⟨fun key v hv => ?_, fun n job hjob => hs.jobs n job (hjobs ▸ hjob)⟩
  obtain ⟨e, he, hsrc⟩ := hs.stored key v (hcache key v hv)
  exact ⟨e, he, hsrc.mono hsub⟩

theorem perform_shelf {c : Cmd} {a : Ans c} (hs : Shelf cfg lib gets s)
    (hc : Permitted cfg lib gets i s c) (h : perform i s c = some (a, s')) :
    Shelf cfg lib gets s' ∧ s.exchanges ⊆ s'.exchanges := by
  cases c with
  | set key value ttl =>
    cases h
    obtain ⟨e, he, hsrc⟩ := hc
    refine ⟨⟨fun key' v hv => ?_, hs.jobs⟩, List.Subset.refl _⟩
    replace hv : Function.update s.cache key _ key' = some v := hv
    by_cases hkey : key' = key
    · subst hkey
      rw [Function.update_self] at hv
      cases hv
      exact ⟨e, he, hsrc⟩
    · rw [Function.update_of_ne hkey] at hv
      exact hs.stored key' v hv
  | spawn job =>
    cases h
    refine ⟨⟨hs.stored, fun n job' hjob => ?_⟩, List.Subset.refl _⟩
    replace hjob : Function.update s.jobs i.read _ n = some job' := hjob
    by_cases hn : n = i.read
    · subst hn
      rw [Function.update_self] at hjob
      cases hjob
      exact hc
    · rw [Function.update_of_ne hn] at hjob
      exact hs.jobs n job' hjob
  | setNx name token ttl =>
    simp only [perform] at h
    split at h <;> cases h <;> exact ⟨⟨hs.stored, hs.jobs⟩, List.Subset.refl _⟩
  | getDel name token =>
    simp only [perform] at h
    split at h <;> cases h <;> exact ⟨⟨hs.stored, hs.jobs⟩, List.Subset.refl _⟩
  | job =>
    obtain ⟨job, -, heq⟩ := Option.map_eq_some_iff.mp h
    cases heq
    exact ⟨hs, List.Subset.refl _⟩
  | _ => cases h; exact ⟨⟨hs.stored, hs.jobs⟩, List.Subset.refl _⟩

theorem exec_cmd {c : Cmd} {ch : Choice} {r : Except Exc (Ans c)} (hs : Shelf cfg lib gets s)
    (hc : Permitted cfg lib gets i s c) (h : exec lib i (.inl c) ch s = some (r, s')) :
    Shelf cfg lib gets s' ∧ s.exchanges ⊆ s'.exchanges ∧
      ∀ a, r = .ok a → perform i s c = some (a, s') := by
  obtain ⟨a, hp, hr⟩ | ⟨rfl, e, -, rfl⟩ := exec_inl h
  · obtain ⟨hs', hx⟩ := perform_shelf hs hc hp
    refine ⟨hs', hx, fun a' ha => ?_⟩
    rcases hr with rfl | ⟨e, -, rfl⟩
    · exact Except.ok.inj ha ▸ hp
    · cases ha
  · exact ⟨hs, List.Subset.refl _, fun _ h => by cases h⟩

theorem exec_call {req : Call} {ch : Choice} {r : Except Exc UpstreamAnswer}
    (hs : Shelf cfg lib gets s) (h : exec lib i (.inr req) ch s = some (r, s')) :
    Shelf cfg lib gets s' ∧ s.exchanges ⊆ s'.exchanges ∧
      ∀ a, r = .ok a → ∃ cookie, ⟨i.read, req, cookie, a⟩ ∈ s'.exchanges := by
  obtain ⟨r', -, heq⟩ := Option.map_eq_some_iff.mp h
  cases heq
  cases r with
  | error e => exact ⟨hs, List.Subset.refl _, fun _ h => by cases h⟩
  | ok a =>
    refine ⟨hs.shrink (List.subset_cons_self _ _) (fun _ _ h => h) rfl,
      List.subset_cons_self _ _, ?_⟩
    rintro _ ⟨⟩
    exact ⟨_, List.mem_cons_self⟩

theorem happen_shelf (e : Happening) (hs : Shelf cfg lib gets s) :
    Shelf cfg lib gets (happen e s) ∧ s.exchanges ⊆ (happen e s).exchanges := by
  cases e with
  | advance d =>
    refine ⟨hs.shrink (List.Subset.refl _) (fun key v hv => ?_) rfl, List.Subset.refl _⟩
    exact (Option.filter_eq_some_iff.mp hv).1
  | evict key =>
    refine ⟨hs.shrink (List.Subset.refl _) (fun key' v hv => ?_) rfl, List.Subset.refl _⟩
    replace hv : Function.update s.cache key none key' = some v := hv
    by_cases hkey : key' = key
    · rw [hkey, Function.update_self] at hv
      cases hv
    · rw [Function.update_of_ne hkey] at hv
      exact hv
  | cookies jar =>
    exact ⟨hs.shrink (List.Subset.refl _) (fun _ _ h => h) rfl, List.Subset.refl _⟩

end

/-! ## The tasks -/

/-- The answer repeats a stored response that this read may see. -/
def Served (cfg : Config) (lib : Libraries) (gets : Nat → GetCall) (s : World) (g : GetCall)
    (resp : Response) (status : CacheStatus) : Prop :=
  status ≠ .miss → g.cacheable = true ∧ ∃ e now, fromCache e status now = .ok resp ∧
    Sourced cfg lib gets s (g.key lib) e

/-- The tasks rely on the history of exchanges to grow. -/
def sharing (cfg : Config) (lib : Libraries) (gets : Nat → GetCall) :
    Contract (machine cfg lib gets) Guard.any where
  I := Shelf cfg lib gets
  R _ s t := s.exchanges ⊆ t.exchanges
  G _ s t := s.exchanges ⊆ t.exchanges
  Q
    | .handler n, .ok (some (resp, status)), s => Served cfg lib gets s (gets n) resp status
    | _, _, _ => True
  refl _ _ := List.Subset.refl _
  trans _ _ _ _ := List.Subset.trans
  others _ _ _ _ _ _ _ h := h
  env e s s' _ hI h := by
    cases h
    obtain ⟨hs', hx⟩ := happen_shelf e hI
    exact ⟨hs', fun _ => hx⟩
  crash _ _ _ hI := ⟨hI, fun _ _ => List.Subset.refl _⟩

section Tasks

variable {cfg : Config} {lib : Libraries} {gets : Nat → GetCall} {i : Thread} {s t : World}

theorem await_wp {c : Cmd} {Q : Except Exc (Ans c) → World → Prop}
    (hc : Permitted cfg lib gets i s c)
    (hQ : ∀ r s' t, Shelf cfg lib gets s → (∀ a, r = .ok a → perform i s c = some (a, s')) →
      s.exchanges ⊆ t.exchanges → Q r t) :
    (await c).wp ((sharing cfg lib gets).pact i) Q s := by
  refine Prog.wp_issue ?_
  rintro r s' ⟨ch, -, hI, hexec⟩
  obtain ⟨hs', hx, hr⟩ := exec_cmd hI hc hexec
  exact ⟨hs', hx, fun t _ ht => hQ r s' t hI hr (List.Subset.trans hx ht)⟩

/-- A command of which nothing is asked and whose answer does not matter. -/
theorem quiet_wp {c : Cmd} {L : World → Prop} (hc : Permitted cfg lib gets i s c)
    (hL : ∀ t, s.exchanges ⊆ t.exchanges → L t) :
    (await c).wp ((sharing cfg lib gets).pact i) (fun _ t => L t) s :=
  await_wp hc fun _ _ t _ _ ht => hL t ht

theorem catchRedis_wp {α : Type} {p : ReadTask α} {a : α} {Q : Except Exc α → World → Prop}
    (ha : ∀ t, Q (.error .redisError) t → Q (.ok a) t)
    (hp : p.wp ((sharing cfg lib gets).pact i) Q s) :
    (catchRedis p a).wp ((sharing cfg lib gets).pact i) Q s := by
  refine Prog.wp_catch hp (fun _ _ h => h) (fun e t he h => ?_) fun _ _ _ h => h
  subst he
  exact ha t h

/-- An answered call is on record. -/
theorem callUpstream_wp (req : Call) :
    (callUpstream cfg req : ReadTask UpstreamResponse).wp ((sharing cfg lib gets).pact i)
      (fun r t => ∀ up, r = .ok up → ∃ a, boundedResponse cfg a = .ok up ∧
        ∃ cookie, ⟨i.read, req, cookie, a⟩ ∈ t.exchanges) s := by
  refine Prog.wp_catch (L := fun r t => ∀ up, r = .ok up → ∃ a, boundedResponse cfg a = .ok up ∧
      ∃ cookie, ⟨i.read, req, cookie, a⟩ ∈ t.exchanges)
    (Prog.wp_seq
      (L := fun r t => ∀ a, r = .ok a → ∃ cookie, ⟨i.read, req, cookie, a⟩ ∈ t.exchanges)
      (Prog.wp_issue ?_) (fun _ _ _ => by simp) fun a t h => ?_)
    (fun _ _ h => h) (fun _ _ _ _ => by simp) (fun _ _ _ _ => by simp)
  · rintro r s' ⟨ch, -, hI, hexec⟩
    obtain ⟨hs', hx, hr⟩ := exec_call hI hexec
    exact ⟨hs', hx, fun t _ ht a ha => (hr a ha).imp fun _ hmem => ht hmem⟩
  · refine Prog.wp_ofExcept fun r hr up hup => ?_
    exact ⟨a, hr.symm.trans hup, h a rfl⟩

/-- Whatever is stored under the key of a request is sourced in its exchange. -/
theorem storeIf_wp {fit : Bool} {key : Text} {freshFor : Nat} {up : UpstreamResponse}
    (h : fit = true → ∀ now, Sourced cfg lib gets s key (.build up freshFor now)) :
    (storeIf fit lib key freshFor up).wp ((sharing cfg lib gets).pact i) (fun _ _ => True) s := by
  unfold storeIf
  by_cases hfit : fit = true
  · rw [if_pos hfit]
    refine Prog.wp_seq (quiet_wp (c := .time)
      (L := fun t => ∀ now, Sourced cfg lib gets t key (.build up freshFor now)) trivial
      fun t ht now => (h hfit now).mono ht) (fun _ _ _ => trivial) fun now t ht => ?_
    exact catchRedis_wp (fun _ _ => trivial) (quiet_wp ⟨_, rfl, ht now⟩ fun _ _ => trivial)
  · rw [if_neg hfit]
    trivial

/-- What `cache_get` finds was stored under the key. -/
theorem cacheGet_wp (hjson : ∀ e, lib.modelValidateJson (lib.modelDumpJson e) = some e)
    (key : Text) : (cacheGet lib key).wp ((sharing cfg lib gets).pact i)
      (fun r t => ∀ status e, r = .ok (status, some e) → Sourced cfg lib gets t key e) s := by
  have hget : (catchRedis (await (.get key)) none).wp ((sharing cfg lib gets).pact i)
      (fun r t => ∀ raw, r = .ok (some raw) →
        ∃ e, raw = lib.modelDumpJson e ∧ Sourced cfg lib gets t key e) s := by
    refine catchRedis_wp (fun _ _ _ h => by cases h)
      (await_wp trivial fun r s' t hs hr ht raw hraw => ?_)
    have hperform := hr _ hraw
    cases hv : s.cache key with
    | none =>
      simp only [perform, hv] at hperform
      cases hperform
    | some v =>
      simp only [perform, hv, Option.map_some] at hperform
      obtain ⟨e, he, hsrc⟩ := hs.stored key v hv
      cases hperform
      exact ⟨e, he, hsrc.mono ht⟩
  refine Prog.wp_seq hget (fun _ _ _ _ _ h => by cases h) fun raw t ht => ?_
  cases raw with
  | none => exact fun _ _ h => by cases h
  | some raw =>
    obtain ⟨e, rfl, hsrc⟩ := ht raw rfl
    simp only [hjson]
    cases e.body with
    | error _ => exact fun _ _ h => by cases h
    | ok _ =>
      refine Prog.wp_seq (quiet_wp (c := .time) (L := fun t => Sourced cfg lib gets t key e)
        trivial fun t ht => hsrc.mono ht) (fun _ _ _ _ _ h => by cases h) fun now t ht => ?_
      rintro status _ ⟨⟩
      exact ht

theorem serve_wp {g : GetCall} {e : CachedResponse} (status : CacheStatus)
    (hg : g.cacheable = true) (h : Sourced cfg lib gets s (g.key lib) e) :
    (serve e status).wp ((sharing cfg lib gets).pact i)
      (fun r t => ∀ resp status, r = .ok (resp, status) →
        Served cfg lib gets t g resp status) s := by
  refine Prog.wp_seq (quiet_wp (c := .time) (L := fun t => Sourced cfg lib gets t (g.key lib) e)
    trivial fun t ht => h.mono ht) (fun _ _ _ _ _ h => by cases h) fun now t ht => ?_
  refine Prog.wp_bind (Prog.wp_ofExcept fun r hr => ?_)
  cases r with
  | error _ => exact fun _ _ h => by cases h
  | ok resp =>
    rintro _ _ ⟨⟩
    exact fun _ => ⟨hg, e, now, hr.symm, ht⟩

/-- Starting a refresh changes nothing of what is known. -/
theorem revalidate_wp {L : World → Prop} (hg : (gets i.read).cacheable = true)
    (hL : ∀ s t, L s → s.exchanges ⊆ t.exchanges → L t) (hs : L s) :
    (revalidate cfg lib (gets i.read)).wp ((sharing cfg lib gets).pact i) (fun _ t => L t) s := by
  have hlock : (acquireLock (lockName ((gets i.read).key lib))
      (max cfg.settings.revalidateLockTtlSeconds ((gets i.read).timeout cfg / 1000000 + 5))).wp
      ((sharing cfg lib gets).pact i) (fun _ t => L t) s := by
    refine Prog.wp_seq (quiet_wp (c := .tokenHex) trivial fun t ht => hL s t hs ht)
      (fun _ _ h => h) fun token t ht => catchRedis_wp (fun _ h => h) ?_
    exact Prog.wp_seq (quiet_wp (c := .setNx _ token _) trivial fun u hu => hL t u ht hu)
      (fun _ _ h => h) fun _ _ h => h
  refine Prog.wp_seq hlock (fun _ _ h => h) fun token t ht => ?_
  cases token with
  | none => exact ht
  | some token => exact quiet_wp ⟨hg, rfl, rfl⟩ fun u hu => hL t u ht hu

/-- The exchange that an answered call has left makes its response sourced. -/
theorem sourced_of_call {g : GetCall} (hread : g = gets i.read) (hg : g.cacheable = true)
    {up : UpstreamResponse} (hup : responseCacheable up = true)
    (h : ∃ a, boundedResponse cfg a = .ok up ∧
      ∃ cookie, ⟨i.read, g.call, cookie, a⟩ ∈ s.exchanges)
    (freshFor : Nat) (now : Time) :
    Sourced cfg lib gets s (g.key lib) (.build up freshFor now) := by
  obtain ⟨a, ha, cookie, hx⟩ := h
  subst hread
  exact ⟨_, hx, up, freshFor, now, rfl, hg, rfl, ha, hup, rfl⟩

theorem fetch_wp : (fetch cfg lib (gets i.read)).wp ((sharing cfg lib gets).pact i)
    (fun r _ => ∀ resp status, r = .ok (resp, status) → status = .miss) s := by
  have hfetched : (Prog.except (do
        let resp ← callUpstream cfg (gets i.read).call
        return some resp)
      fun e => if isUpstreamError e then some (.ret none) else none : ReadTask _).wp
      ((sharing cfg lib gets).pact i) (fun r t => ∀ up, r = .ok (some up) →
        ∃ a, boundedResponse cfg a = .ok up ∧
          ∃ cookie, ⟨i.read, (gets i.read).call, cookie, a⟩ ∈ t.exchanges)
      s := by
    refine Prog.wp_catch (Prog.wp_seq (callUpstream_wp (gets i.read).call)
      (Q := fun r t => ∀ up, r = .ok (some up) → ∃ a, boundedResponse cfg a = .ok up ∧
        ∃ cookie, ⟨i.read, (gets i.read).call, cookie, a⟩ ∈ t.exchanges) (fun _ _ _ => by simp)
      fun resp t h => ?_) (fun _ _ h => h) (fun _ _ _ _ => by simp) fun _ _ _ _ => by simp
    rintro _ ⟨⟩
    exact h resp rfl
  have hanswer : ∀ (o : Except Exc Response) (t : World),
      (Prog.bind (Prog.ofExcept o) fun response => .ret (response, CacheStatus.miss) : ReadTask _).wp
        ((sharing cfg lib gets).pact i)
        (fun r _ => ∀ resp status, r = .ok (resp, status) → status = .miss) t := by
    intro o t
    refine Prog.wp_bind (Prog.wp_ofExcept fun r _ => ?_)
    cases r with
    | error _ => exact fun _ _ h => by cases h
    | ok resp =>
      rintro _ _ ⟨⟩
      rfl
  refine Prog.wp_seq hfetched (fun _ _ _ _ _ h => by cases h) fun fetched t ht => ?_
  cases fetched with
  | none => exact hanswer _ t
  | some up =>
    refine Prog.wp_seq (storeIf_wp fun hfit now => ?_) (fun _ _ _ _ _ h => by cases h)
      fun _ u _ => hanswer _ u
    obtain ⟨hg, hup⟩ := Bool.and_eq_true_iff.mp hfit
    exact sourced_of_call rfl hg hup (ht up rfl) _ now

theorem handleGet_wp (hjson : ∀ e, lib.modelValidateJson (lib.modelDumpJson e) = some e) :
    (handleGet cfg lib (gets i.read)).wp ((sharing cfg lib gets).pact i)
      (fun r t => ∀ resp status, r = .ok (resp, status) →
        Served cfg lib gets t (gets i.read) resp status) s := by
  have hfound : (lookup lib (gets i.read)).wp ((sharing cfg lib gets).pact i)
      (fun r t => ∀ status e, r = .ok (status, some e) → (gets i.read).cacheable = true ∧
        Sourced cfg lib gets t ((gets i.read).key lib) e) s := by
    unfold lookup
    by_cases hg : (gets i.read).cacheable = true
    · rw [if_pos hg]
      exact Prog.wp_mono (fun _ _ h status e hr => ⟨hg, h status e hr⟩) (cacheGet_wp hjson _)
    · rw [if_neg hg]
      exact fun _ _ h => by cases h
  have hmiss : ∀ {t : World}, (fetch cfg lib (gets i.read)).wp ((sharing cfg lib gets).pact i)
      (fun r t => ∀ resp status, r = .ok (resp, status) →
        Served cfg lib gets t (gets i.read) resp status) t :=
    Prog.wp_mono (fun _ _ h resp status hr hne => absurd (h resp status hr) hne) fetch_wp
  refine Prog.wp_seq hfound (fun _ _ _ _ _ h => by cases h) fun found t ht => ?_
  obtain ⟨status, entry⟩ := found
  cases entry with
  | none => cases status <;> exact hmiss
  | some e =>
    obtain ⟨hg, hsrc⟩ := ht status e rfl
    cases status with
    | miss => exact hmiss
    | hit => exact serve_wp .hit hg hsrc
    | stale =>
      refine Prog.wp_seq (revalidate_wp
        (L := fun t => Sourced cfg lib gets t ((gets i.read).key lib) e) hg
        (fun _ _ h => h.mono) hsrc) (fun _ _ _ _ _ h => by cases h) fun _ u hu => ?_
      exact serve_wp .stale hg hu

theorem refreshCache_wp {job : RefreshJob} (h : JobOf lib (gets i.read) job) :
    (refreshCache cfg lib job).wp ((sharing cfg lib gets).pact i) (fun _ _ => True) s := by
  have hrelease : ∀ t, (releaseLock (lockName job.key) job.lockToken).wp
      ((sharing cfg lib gets).pact i) (fun _ _ => True) t := fun t =>
    catchRedis_wp (fun _ _ => trivial) (quiet_wp trivial fun _ _ => trivial)
  refine Prog.wp_finally (Prog.wp_mono (Q := fun _ _ => True) (fun r t _ =>
    Prog.wp_mono (fun r' _ _ => by cases r' <;> trivial) (hrelease t)) ?_)
  refine Prog.wp_catch (L := fun _ _ => True) (Prog.wp_seq (callUpstream_wp _)
    (fun _ _ _ => trivial) fun up t ht => ?_) (fun _ _ _ => trivial) (fun _ _ _ _ => trivial)
    fun _ _ _ _ => trivial
  have hcall := ht up rfl
  rw [h.call] at hcall
  rw [h.key]
  exact storeIf_wp fun hup now => sourced_of_call rfl h.cacheable hup hcall _ now

theorem boot_wp (hjson : ∀ e, lib.modelValidateJson (lib.modelDumpJson e) = some e) :
    (boot cfg lib gets i).wp ((sharing cfg lib gets).pact i) ((sharing cfg lib gets).Q i) s := by
  cases i with
  | handler n =>
    refine Prog.wp_seq (handleGet_wp (i := .handler n) hjson) (fun _ _ _ => trivial)
      fun answer t ht => ?_
    exact ht answer.1 answer.2 rfl
  | refresh n =>
    refine Prog.wp_seq (L := fun r _ => ∀ job, r = .ok job → JobOf lib (gets n) job)
      (await_wp trivial fun r s' t hs hr _ job hjob => ?_) (fun _ _ _ => trivial)
      fun job t ht => ?_
    · obtain ⟨job', hjob', heq⟩ := Option.map_eq_some_iff.mp (hr job hjob)
      cases heq
      exact hs.jobs n job hjob'
    · exact Prog.wp_seq (refreshCache_wp (i := .refresh n) (ht job rfl)) (fun _ _ _ => trivial)
        fun _ _ _ => trivial

end Tasks

/-! ## Runs -/

/-- No header ties the request to a caller or to a part of the resource. -/
def Anonymous (r : Request) : Prop := ∀ name ∈ privateHeaders, r.header name = none

theorem GetCall.anonymous {g : GetCall} (h : g.cacheable = true) : Anonymous g.request := by
  intro name hname
  have hallowed := (Bool.and_eq_true_iff.mp (Bool.and_eq_true_iff.mp h).2).1
  simp only [Bool.not_eq_eq_eq_not, Bool.not_true, List.any_eq_false] at hallowed
  simpa using hallowed name hname

theorem responseCacheable_iff {up : UpstreamResponse} : responseCacheable up = true ↔
    up.status = 200 ∧ ∀ name ∈ directiveHeaders, up.headers.get? name = none := by
  simp [responseCacheable]

/-- The response consists of the status, the body and the cleaned headers of the
upstream's, apart from the two headers of the cache itself. -/
def Repeats (up : UpstreamResponse) (status : CacheStatus) (resp : Response) : Prop :=
  ∃ age, Response.make up.content up.status
    (((responseHeaders up).set "X-Cache-Status" status.value).set "X-Cache-Age" age)
    (up.headers.get? "content-type") = .ok resp

theorem fromCache_build {up : UpstreamResponse} {freshFor : Nat} {stored now : Time}
    {status : CacheStatus} {resp : Response}
    (h : fromCache (.build up freshFor stored) status now = .ok resp) :
    Repeats up status resp := by
  simp only [fromCache, CachedResponse.body, CachedResponse.build,
    Base64.b64decode_b64encode] at h
  exact ⟨_, h⟩

section Runs

variable {cfg : Config} {lib : Libraries} {gets : Nat → GetCall}
  {q : Pool Thread (Cmd ⊕ Call) (Sum.elim Ans Call.Ans) Exc Outcome World}

/-- What a read was given from the cache is the response of an exchange with the same target
and the same folded header map. -/
theorem served_from_same_variant (hsha : Function.Injective lib.sha256)
    (hjson : ∀ e, lib.modelValidateJson (lib.modelDumpJson e) = some e) {n : Nat}
    {resp : Response} {status : CacheStatus}
    (hq : (machine cfg lib gets).Reach Guard.any ((machine cfg lib gets).start {}) q)
    (hret : q.prog (.handler n) = some (.ret (some (resp, status))))
    (hserved : status = .hit ∨ status = .stale) :
    (gets n).cacheable = true ∧ ∃ x ∈ q.state.exchanges, ∃ up,
      x.call.url = (gets n).target ∧
      (folded x.call.headers).Perm (folded (gets n).fwdHeaders) ∧
      x.call = (gets x.read).call ∧ (gets x.read).cacheable = true ∧
      boundedResponse cfg x.answer = .ok up ∧ responseCacheable up = true ∧
      Repeats up status resp := by
  have hsound := (sharing cfg lib gets).sound shelf_start
    (fun _ _ _ _ => boot_wp hjson) (fun _ _ _ _ h => by cases h) hq
  obtain ⟨hI, hkept⟩ := hsound
  have hne : status ≠ .miss := by
    rcases hserved with rfl | rfl <;> exact fun h => by cases h
  obtain ⟨hg, e, now, hresp, x, hx, up, freshFor, stored, hcall, hg', hkey, hup, hfit, rfl⟩ :=
    hkept (.handler n) _ hret q.state hI (List.Subset.refl _) hne
  obtain ⟨htarget, hperm⟩ := cacheKey_determines hsha hkey
  refine ⟨hg, x, hx, up, ?_, ?_, hcall, hg', hup, hfit, fromCache_build hresp⟩
  · rw [hcall]
    exact htarget.symm
  · rw [hcall]
    exact hperm.symm

end Runs

/-! ## The cookies of other clients -/

section Cookies

variable (cfg : Config) (lib : Libraries) (gets : Nat → GetCall)

/-- An answer that may be stored. -/
def Storable (a : UpstreamAnswer) : Prop :=
  ∃ up, boundedResponse cfg a = .ok up ∧ responseCacheable up = true

/-- The jar has no cookie for the request of a read, if the read and its answer are ones that
may be shared. -/
def cookieless : Guard Thread (Cmd ⊕ Call) World Choice Happening where
  act i c ch s := ∀ req a, c = .inr req → ch = .answer a → (gets i.read).cacheable = true →
    Storable cfg a → lib.cookies.added s.jar req = none
  crash _ _ := True
  env _ _ := True

/-- The stored answers were not given for the cookies of somebody else. -/
def Unmixed (s : World) : Prop :=
  ∀ x ∈ s.exchanges, (gets x.read).cacheable = true → Storable cfg x.answer → x.cookie = none

variable {cfg lib gets} {i : Thread} {s s' : World}
  {q : Pool Thread (Cmd ⊕ Call) (Sum.elim Ans Call.Ans) Exc Outcome World}

theorem perform_exchanges {c : Cmd} {a : Ans c} (h : perform i s c = some (a, s')) :
    s'.exchanges = s.exchanges := by
  cases c with
  | setNx name token ttl =>
    simp only [perform] at h
    split at h <;> cases h <;> rfl
  | getDel name token =>
    simp only [perform] at h
    split at h <;> cases h <;> rfl
  | job =>
    obtain ⟨job, -, heq⟩ := Option.map_eq_some_iff.mp h
    cases heq
    rfl
  | _ => cases h; rfl

theorem unmixed_exec {c : Cmd ⊕ Call} {ch : Choice} {r : Except Exc (Sum.elim Ans Call.Ans c)}
    (hg : (cookieless cfg lib gets).act i c ch s) (hs : Unmixed cfg gets s)
    (h : exec lib i c ch s = some (r, s')) : Unmixed cfg gets s' := by
  cases c with
  | inl c =>
    have hsame : s'.exchanges = s.exchanges := by
      obtain ⟨a, hp, -⟩ | ⟨rfl, -⟩ := exec_inl h
      · exact perform_exchanges hp
      · rfl
    rw [Unmixed, hsame]
    exact hs
  | inr req =>
    cases ch with
    | ok => cases h
    | answer a =>
      cases h
      exact List.forall_mem_cons.mpr ⟨hg req a rfl rfl, hs⟩
    | refuse e | lost e =>
      obtain ⟨r', hr, heq⟩ := Option.map_eq_some_iff.mp h
      simp only [Call.outcome] at hr
      split at hr <;> cases hr
      cases heq
      exact hs

theorem unmixed_of_reach
    (hq : (machine cfg lib gets).Reach (cookieless cfg lib gets)
      ((machine cfg lib gets).start {}) q) :
    Unmixed cfg gets q.state := by
  refine hq.state_invariant (fun i c ch s r s' hg hs h => unmixed_exec hg hs h)
    (fun i s _ hs => hs) (fun e s s' _ hs h => ?_) fun x hx => by cases hx
  cases h
  cases e <;> exact hs

/-- A read that was served from the cache carries nothing private, and what it was
given is the response of an exchange with the same target and the same folded
header map, made for a read that carried nothing private either and sent without a cookie,
in which the upstream answered 200 and left caching to the gateway.  For that the jar may
not have a cookie for a read whose answer is stored. -/
theorem cached_answer_from_same_variant (hsha : Function.Injective lib.sha256)
    (hjson : ∀ e, lib.modelValidateJson (lib.modelDumpJson e) = some e) {n : Nat}
    {resp : Response} {status : CacheStatus}
    (hq : (machine cfg lib gets).Reach (cookieless cfg lib gets)
      ((machine cfg lib gets).start {}) q)
    (hret : q.prog (.handler n) = some (.ret (some (resp, status))))
    (hserved : status = .hit ∨ status = .stale) :
    Anonymous (gets n).request ∧ ∃ x ∈ q.state.exchanges, ∃ up,
      x.call.url = (gets n).target ∧
      (folded x.call.headers).Perm (folded (gets n).fwdHeaders) ∧ x.cookie = none ∧
      x.call = (gets x.read).call ∧ Anonymous (gets x.read).request ∧
      boundedResponse cfg x.answer = .ok up ∧ up.status = 200 ∧
      (∀ name ∈ directiveHeaders, up.headers.get? name = none) ∧
      resp.status = up.status ∧ resp.content = up.content ∧ Repeats up status resp := by
  obtain ⟨hg, x, hx, up, hurl, hperm, hcall, hg', hup, hfit, hrepeats⟩ :=
    served_from_same_variant hsha hjson hq.unguarded hret hserved
  obtain ⟨h200, hdirectives⟩ := responseCacheable_iff.mp hfit
  obtain ⟨age, hmake⟩ := hrepeats
  obtain ⟨hstatus, hcontent, -⟩ := Response.make_ok hmake
  exact ⟨GetCall.anonymous hg, x, hx, up, hurl, hperm,
    unmixed_of_reach hq x hx hg' ⟨up, hup, hfit⟩, hcall, GetCall.anonymous hg', hup, h200,
    hdirectives, hstatus, hcontent, age, hmake⟩

end Cookies

/-! ## Two reads of one page -/

section Mock

def mockReader : Request where
  method := "GET"
  headers := [("accept", "application/json"), ("host", "gateway")]
  path := "/proxy/mock/items"
  userId := none
  clientIp := "127.0.0.1"

def mockRead : GetCall where
  request := mockReader
  target := "http://mock.test/items?q=1"
  rule := {}
  fwdHeaders := forwardHeaders mockReader

def mockPage : UpstreamAnswer where
  status := 200
  headers := ⟨[("content-type", "application/json")], by decide⟩
  setCookie := []
  body := utf8 "\x7b\"id\":1\x7d"

def mockEnvelope : CachedResponse where
  status := 200
  headers := ⟨[("content-type", "application/json")], by decide⟩
  bodyB64 := "eyJpZCI6MX0="
  mediaType := some "application/json"
  storedAt := 0
  freshFor := 60

/-- The envelope as it stands in Redis. -/
def mockJson : Text :=
  "\x7b\"status\":200,\"headers\":\x7b\"content-type\":\"application/json\"\x7d,\"body_b64\":\"eyJpZCI6MX0=\",\"media_type\":\"application/json\",\"stored_at\":0.0,\"fresh_for\":60\x7d"

/-- The bytes that the key of the page is the hash of. -/
def mockPreimage : Bytes :=
  utf8 ("GET\x00http://mock.test/items?q=1\x00\x00[[\"accept\", \"application/json\"], [\"accept-encoding\", \"identity\"], [\"x-forwarded-for\", \"127.0.0.1\"], [\"x-network-quality\", \"GOOD\"]]" : Text)

def natJson (n : Nat) : Json := .arr (List.replicate n .null)

def optJson : Option Text → Json
  | none => .null
  | some t => .str t

/-- Some value for every other envelope. -/
def otherJson (e : CachedResponse) : Json :=
  .arr [natJson e.status, .obj (e.headers.items.map fun h => (h.1, .str h.2)), .str e.bodyB64,
    optJson e.mediaType, natJson e.storedAt, natJson e.freshFor]

theorem natJson_injective : Function.Injective natJson := by
  intro m n h
  have hlen := congrArg List.length (Json.arr.inj h)
  simpa using hlen

theorem optJson_injective : Function.Injective optJson := by
  intro a b h
  cases a <;> cases b <;> cases h <;> rfl

theorem strMembers_injective :
    Function.Injective fun ms : List (Text × Text) => ms.map fun h => (h.1, Json.str h.2) := by
  refine List.map_injective_iff.mpr ?_
  rintro ⟨a, b⟩ ⟨c, d⟩ h
  cases h
  rfl

theorem otherJson_injective : Function.Injective otherJson := by
  intro e e' h
  simp only [otherJson, Json.arr.injEq, List.cons.injEq, Json.obj.injEq, Json.str.injEq] at h
  obtain ⟨h1, h2, h3, h4, h5, h6, -⟩ := h
  cases e
  cases e'
  simp only [CachedResponse.mk.injEq]
  exact ⟨natJson_injective h1, Dict.ext_items (strMembers_injective h2), h3,
    optJson_injective h4, natJson_injective h5, natJson_injective h6⟩

theorem natJson_plain (n : Nat) : (natJson n).Plain := by
  show Json.PlainElems (List.replicate n .null)
  induction n with
  | zero => trivial
  | succ n ih => exact ⟨trivial, ih⟩

theorem optJson_plain (t : Option Text) : (optJson t).Plain := by
  cases t <;> trivial

theorem otherJson_plain (e : CachedResponse) : (otherJson e).Plain := by
  have hkeys : ((e.headers.mapVal Json.str).items.map Prod.fst).Nodup :=
    (e.headers.mapVal Json.str).nodup
  exact ⟨natJson_plain _, ⟨hkeys, Json.plainMembers_str _⟩, trivial, optJson_plain _,
    natJson_plain _, natJson_plain _, trivial⟩

/-- The JSON form of the page's envelope, and texts of another kind for the rest. -/
def mockDump (e : CachedResponse) : Text :=
  if e = mockEnvelope then mockJson else 'x' :: (otherJson e).dumps

theorem mockDump_injective : Function.Injective mockDump := by
  have hother : ∀ e, mockJson ≠ 'x' :: (otherJson e).dumps := by
    intro e h
    have hhead : mockJson.head? = some '{' := by decide +kernel
    rw [h] at hhead
    cases hhead
  intro e e' h
  unfold mockDump at h
  split at h
  next he =>
    split at h
    next he' => rw [he, he']
    next => exact absurd h (hother e')
  next =>
    split at h
    next => exact absurd h.symm (hother e)
    next =>
      exact otherJson_injective
        (Json.dumps_injective (otherJson_plain e) (otherJson_plain e') (List.cons.inj h).2)

/-- The SHA-256 digest of the page's key, and texts of another kind for the rest. -/
def mockSha256 (b : Bytes) : Text :=
  if b = mockPreimage then "b096c1d28b653871c49ec8e6d85accd2785933f80904b45af520d1eb823cdaff"
  else 'x' :: latin1 b

theorem mockSha256_injective : Function.Injective mockSha256 := by
  have hlatin1 : Function.Injective latin1 := by
    intro b b' h
    have hb := latin1Encode_latin1 b
    rw [h, latin1Encode_latin1] at hb
    exact (Option.some.inj hb).symm
  intro b b' h
  unfold mockSha256 at h
  split at h
  next hb =>
    split at h
    next hb' => rw [hb, hb']
    next => cases (List.cons.inj h).1
  next =>
    split at h
    next => cases (List.cons.inj h).1
    next => exact hlatin1 (List.cons.inj h).2

/-- The host of an address. -/
def hostOf (url : Text) : Text := (splitOn '/' url).getD 2 []

/-- Cookies without other attributes than `Path=/`. -/
def mockCookies : CookiePolicy where
  header jar url :=
    let cookies := jar.filter fun c => c.domain == hostOf url
    if cookies.isEmpty then none
    else some ([';', ' '].intercalate (cookies.map fun c => c.name ++ '=' :: c.value))
  extract jar url a := a.setCookie.foldl (fun jar line =>
    let pair := partition '=' (partition ';' line).1
    (jar.filter fun c => !(c.domain == hostOf url && c.name == pair.1)) ++
      [⟨pair.1, pair.2, hostOf url, "/"⟩]) jar

noncomputable def mockLibraries : Libraries where
  sha256 := mockSha256
  modelDumpJson := mockDump
  modelValidateJson t := if t = mockJson then some mockEnvelope else Function.partialInv mockDump t
  cookies := mockCookies

theorem mockLibraries_json (e : CachedResponse) :
    mockLibraries.modelValidateJson (mockLibraries.modelDumpJson e) = some e := by
  show (if mockDump e = mockJson then _ else _) = some e
  have henvelope : mockDump mockEnvelope = mockJson := if_pos rfl
  split
  next h => rw [mockDump_injective (h.trans henvelope.symm)]
  next => exact Function.partialInv_left mockDump_injective e

/-- The answer of a read that has come to its end. -/
def answered (p : Pool Thread (Cmd ⊕ Call) (Sum.elim Ans Call.Ans) Exc Outcome World) (n : Nat) :
    Outcome :=
  match p.prog (.handler n) with
  | some (.ret r) => r
  | _ => none

theorem prog_of_answered {p : Pool Thread (Cmd ⊕ Call) (Sum.elim Ans Call.Ans) Exc Outcome World}
    {n : Nat} {out : Response × CacheStatus} (h : answered p n = some out) :
    p.prog (.handler n) = some (.ret (some out)) := by
  unfold answered at h
  split at h
  next r hr => rw [hr, h]
  next => cases h

/-- The step is no answer to a request that the client has added a cookie to. -/
def addsNoCookie (lib : Libraries)
    (p : Pool Thread (Cmd ⊕ Call) (Sum.elim Ans Call.Ans) Exc Outcome World) :
    Label Thread Choice Happening → Bool
  | .act i (.answer _) =>
    match p.prog i with
    | some (.call (.inr req) _) => (lib.cookies.added p.state.jar req).isNone
    | _ => true
  | _ => true

theorem cookieless_allows {cfg : Config} {lib : Libraries} {gets : Nat → GetCall}
    (p : Pool Thread (Cmd ⊕ Call) (Sum.elim Ans Call.Ans) Exc Outcome World)
    (l : Label Thread Choice Happening) (h : addsNoCookie lib p l = true) :
    (cookieless cfg lib gets).allows p l := by
  cases l with
  | act i ch =>
    rw [Guard.allows]
    split
    next c k hp =>
      rintro req a rfl rfl - -
      simp only [addsNoCookie, hp] at h
      exact Option.isNone_iff_eq_none.mp h
    next => trivial
  | loop i | crash i | env e => trivial

/-- The first read fetches the page, and the second is served from the cache. -/
theorem cached_answer_mock :
    let M := machine mockConfig mockLibraries fun _ => mockRead
    ∃ q resp, M.Reach (cookieless mockConfig mockLibraries fun _ => mockRead) (M.start {}) q ∧
      q.prog (.handler 1) = some (.ret (some (resp, .hit))) ∧ resp.content = mockPage.body ∧
      Anonymous mockRead.request ∧ ∃ x ∈ q.state.exchanges, x.call.url = mockRead.target ∧
        (folded x.call.headers).Perm (folded mockRead.fwdHeaders) ∧ x.cookie = none := by
  intro M
  have hrun : ((M.runIn (addsNoCookie mockLibraries) (M.start {}) [.act (.handler 0) .ok,
      .act (.handler 0) (.answer mockPage), .act (.handler 0) .ok, .act (.handler 0) .ok,
      .act (.handler 1) .ok, .act (.handler 1) .ok, .act (.handler 1) .ok]).map fun q =>
        (answered q 1).map fun r => (r.1.content, r.2)) = some (some (mockPage.body, .hit)) := by
    decide +kernel
  obtain ⟨q, hq, hobs⟩ := Option.map_eq_some_iff.mp hrun
  obtain ⟨⟨resp, status⟩, hanswered, hobs⟩ := Option.map_eq_some_iff.mp hobs
  obtain ⟨hcontent, rfl⟩ := Prod.mk.inj hobs
  have hret := prog_of_answered hanswered
  have hreach : M.Reach (cookieless mockConfig mockLibraries fun _ => mockRead) (M.start {}) q :=
    Machine.reach_of_runIn cookieless_allows hq
  obtain ⟨hanon, x, hx, up, hurl, hperm, hcookie, -⟩ := cached_answer_from_same_variant
    mockSha256_injective mockLibraries_json hreach hret (Or.inl rfl)
  exact ⟨q, resp, hreach, hret, hcontent, hanon, x, hx, hurl, hperm, hcookie⟩

/-- A read of the page where clients log in. -/
def mockLogin : GetCall := { mockRead with target := "http://mock.test/login" }

def mockWelcome : UpstreamAnswer where
  status := 200
  headers := ⟨[("content-type", "application/json"), ("set-cookie", "sid=alice; Path=/")],
    by decide⟩
  setCookie := ["sid=alice; Path=/"]
  body := utf8 "\x7b\x7d"

/-- One client logs in and two others read the page.  What the second of them is served from
the cache was given for the cookie of the first client. -/
theorem cached_answer_of_session :
    let gets := fun n => if n = 0 then mockLogin else mockRead
    let M := machine mockConfig mockLibraries gets
    ∃ q resp, M.Reach Guard.any (M.start {}) q ∧
      q.prog (.handler 2) = some (.ret (some (resp, .hit))) ∧ resp.content = mockPage.body ∧
      ¬∃ x ∈ q.state.exchanges, x.call.url = (gets 2).target ∧ x.cookie = none := by
  intro gets M
  have hrun : ((M.run (M.start {}) [.act (.handler 0) .ok, .act (.handler 0) (.answer mockWelcome),
      .act (.handler 1) .ok, .act (.handler 1) (.answer mockPage), .act (.handler 1) .ok,
      .act (.handler 1) .ok, .act (.handler 2) .ok, .act (.handler 2) .ok,
      .act (.handler 2) .ok]).map fun q => ((answered q 2).map fun r => (r.1.content, r.2),
        q.state.exchanges.all fun x => decide (x.call.url = mockRead.target →
          x.cookie = some "sid=alice".toList))) = some (some (mockPage.body, .hit), true) := by
    decide +kernel
  obtain ⟨q, hq, hobs⟩ := Option.map_eq_some_iff.mp hrun
  obtain ⟨hobs, hcookies⟩ := Prod.mk.inj hobs
  obtain ⟨⟨resp, status⟩, hanswered, hobs⟩ := Option.map_eq_some_iff.mp hobs
  obtain ⟨hcontent, rfl⟩ := Prod.mk.inj hobs
  refine ⟨q, resp, Machine.reach_of_run hq, prog_of_answered hanswered, hcontent, ?_⟩
  rintro ⟨x, hx, hurl, hnone⟩
  have hcookie := of_decide_eq_true (List.all_eq_true.mp hcookies x hx) hurl
  rw [hnone] at hcookie
  cases hcookie

end Mock

end Cache
end Proxy
end AdaptiveGateway
