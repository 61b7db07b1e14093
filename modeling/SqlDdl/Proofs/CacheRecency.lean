import SqlDdl.StatementCache

/-!
# The cache is a list in order of use

The store behind a cache is a parameter, and what it does is assumed, not defined: that from a
new store of capacity `cap` on, its operations act on the entries it holds, listed the most
recently used first, as the reference list `LruList` does (`LruStore.Lawful`). A lookup brings
the entry found to the front; putting a value under a new key puts it in front, and when `cap`
entries are kept the last gives way.

A cache is driven by a run of steps from the empty cache of a configuration: texts to parse,
and requests to clear it (`StatementCache.Run`); asking for its size or whether it is empty
changes nothing. Along every run the store's entries form a least-recently-used list
(`Recency`): their texts are distinct, there are at most as many as the configured capacity
allows, and each holds the share that the miss which parsed it answered. The misses of a run are
numbered 0, 1, 2, … in order, so a number names one miss.

Each answer of `parse` is then one of three moves on that list (`parse_of_mem`,
`parse_of_not_mem_error`, `parse_of_not_mem_ok`): a hit brings its entry to the front and leaves
the rest in order; a miss that is no statement leaves the entries as they were; a miss that is
one puts the new entry in front, and when the store was full the last entry gives way.
`runs_as_lru` gathers all of it. A store kept as a list obeys the laws (`ListLru.lawful`).
-/

namespace SqlDdl

namespace LruList

variable {κ ν : Type} [DecidableEq κ] {l l₁ l₂ : List (κ × ν)} {k : κ} {v : ν}

theorem get_of_eq_append (hnd : (l.map Prod.fst).Nodup) (hl : l = l₁ ++ (k, v) :: l₂) :
    get l k = (some v, (k, v) :: (l₁ ++ l₂)) := by
  have hnd' : (l₁.map Prod.fst ++ k :: l₂.map Prod.fst).Nodup := by simpa [hl] using hnd
  have h₁ : ∀ x ∈ l₁, x.1 ≠ k := fun x hx hxk =>
    (List.nodup_append.1 hnd').2.2 _ (List.mem_map_of_mem hx) _ List.mem_cons_self hxk
  have h₂ : ∀ x ∈ l₂, x.1 ≠ k := fun x hx hxk =>
    (List.nodup_cons.1 (List.nodup_append.1 hnd').2.1).1 (hxk ▸ List.mem_map_of_mem hx)
  have hfind : l.find? (·.1 == k) = some (k, v) := by
    rw [hl, List.find?_append, List.find?_eq_none.2 (by simpa using h₁)]
    simp
  have hfilter : l.filter (·.1 != k) = l₁ ++ l₂ := by
    rw [hl, List.filter_append, List.filter_cons_of_neg (by simp),
      List.filter_eq_self.2 (by simpa using h₁), List.filter_eq_self.2 (by simpa using h₂)]
  simp only [get, hfind, hfilter]

theorem get_of_not_mem (hk : k ∉ l.map Prod.fst) : get l k = (none, l) := by
  have hfind : l.find? (·.1 == k) = none :=
    List.find?_eq_none.2 fun x hx hxk => hk (List.mem_map.2 ⟨x, hx, by simpa using hxk⟩)
  simp only [get, hfind]

theorem put_of_not_mem (hk : k ∉ l.map Prod.fst) (cap : Nat) (v : ν) :
    put cap l k v = (k, v) :: if l.length = cap then l.dropLast else l := by
  have hany : l.any (·.1 == k) = false :=
    List.any_eq_false.2 fun x hx hxk => hk (List.mem_map.2 ⟨x, hx, by simpa using hxk⟩)
  simp only [put, hany, Bool.false_eq_true, if_false]

theorem mem_of_mem_get {e : κ × ν} (he : e ∈ (get l k).2) : e ∈ l := by
  unfold get at he
  split at he
  · next x hfind =>
    rcases List.mem_cons.1 he with rfl | he
    · exact List.mem_of_find?_eq_some hfind
    · exact (List.mem_filter.1 he).1
  · exact he

theorem mem_of_get_eq_some (hg : (get l k).1 = some v) : (k, v) ∈ l := by
  unfold get at hg
  split at hg
  · next x hfind =>
    cases hg
    have hk : x.1 = k := by simpa using List.find?_some hfind
    exact hk ▸ List.mem_of_find?_eq_some hfind
  · cases hg

theorem mem_of_mem_put {cap : Nat} {e : κ × ν} (he : e ∈ put cap l k v) : e = (k, v) ∨ e ∈ l := by
  unfold put at he
  split at he
  · exact (List.mem_cons.1 he).imp_right fun he => (List.mem_filter.1 he).1
  · refine (List.mem_cons.1 he).imp_right fun he => ?_
    split at he
    · exact List.dropLast_subset l he
    · exact he

end LruList

namespace LruStore

variable {σ κ ν : Type} (lru : LruStore σ κ ν)

/-- `lru` reaches `s` from a new store of capacity `cap` by its own operations, and `puts` lists
what was put on the way, in order. -/
inductive Reaches (cap : Nat) : σ → List (κ × ν) → Prop
  | new : Reaches cap (lru.new cap) []
  | get {s : σ} {puts : List (κ × ν)} (k : κ) :
      Reaches cap s puts → Reaches cap (lru.get s k).2 puts
  | put {s : σ} {puts : List (κ × ν)} (k : κ) (v : ν) :
      Reaches cap s puts → Reaches cap (lru.put s k v) (puts ++ [(k, v)])
  | clear {s : σ} {puts : List (κ × ν)} : Reaches cap s puts → Reaches cap (lru.clear s) puts

/-- A lookup answers only with a value that was put under the same key. -/
def GetsWhatWasPut : Prop :=
  ∀ cap s puts, 0 < cap → lru.Reaches cap s puts → ∀ k v, (lru.get s k).1 = some v → (k, v) ∈ puts

/-- The laws of a least-recently-used store, read through `view`, which lists the entries a state
holds, the most recently used first. From a new store of a positive capacity `cap` on, `get`,
`put` and `clear` act on the entries as `LruList` does with capacity `cap`, and `len` and
`isEmpty` read them. -/
structure Lawful [DecidableEq κ] (view : σ → List (κ × ν)) : Prop where
  view_new : ∀ cap, 0 < cap → view (lru.new cap) = []
  get : ∀ {cap s puts}, 0 < cap → lru.Reaches cap s puts → ∀ k,
    (lru.get s k).1 = (LruList.get (view s) k).1 ∧ view (lru.get s k).2 = (LruList.get (view s) k).2
  put : ∀ {cap s puts}, 0 < cap → lru.Reaches cap s puts → ∀ k v,
    view (lru.put s k v) = LruList.put cap (view s) k v
  len : ∀ {cap s puts}, 0 < cap → lru.Reaches cap s puts → lru.len s = (view s).length
  isEmpty : ∀ {cap s puts}, 0 < cap → lru.Reaches cap s puts → lru.isEmpty s = (view s).isEmpty
  view_clear : ∀ {cap s puts}, 0 < cap → lru.Reaches cap s puts → view (lru.clear s) = []

variable {lru} [DecidableEq κ] {view : σ → List (κ × ν)}

theorem Lawful.mem_puts (h : lru.Lawful view) {cap s puts} (hcap : 0 < cap)
    (hr : lru.Reaches cap s puts) : ∀ e ∈ view s, e ∈ puts := by
  induction hr with
  | new => simp [h.view_new _ hcap]
  | get k hr ih =>
    intro e he
    rw [(h.get hcap hr k).2] at he
    exact ih e (LruList.mem_of_mem_get he)
  | put k v hr ih =>
    intro e he
    rw [h.put hcap hr] at he
    rcases LruList.mem_of_mem_put he with rfl | he
    · exact List.mem_append_right _ (List.mem_singleton_self _)
    · exact List.mem_append_left _ (ih e he)
  | clear hr _ =>
    intro e he
    rw [h.view_clear hcap hr] at he
    cases he

/-- A store that obeys the laws answers only with what was put. -/
theorem Lawful.getsWhatWasPut (h : lru.Lawful view) : lru.GetsWhatWasPut := by
  intro cap s puts hcap hr k v hget
  rw [(h.get hcap hr k).1] at hget
  exact h.mem_puts hcap hr _ (LruList.mem_of_get_eq_some hget)

end LruStore

namespace ListLru

variable {κ ν : Type} [DecidableEq κ]

theorem capacity_of_reaches {cap : Nat} {s : ListLru κ ν} {puts : List (κ × ν)}
    (h : (store : LruStore (ListLru κ ν) κ ν).Reaches cap s puts) : s.capacity = cap := by
  induction h with
  | new => rfl
  | get _ _ ih => exact ih
  | put _ _ _ ih => exact ih
  | clear _ ih => exact ih

/-- A store kept as a list obeys the laws of a least-recently-used store. -/
theorem lawful : (store : LruStore (ListLru κ ν) κ ν).Lawful ListLru.entries where
  view_new _ _ := rfl
  get _ _ _ := ⟨rfl, rfl⟩
  put _ h _ _ := by rw [← capacity_of_reaches h]; rfl
  len _ _ := rfl
  isEmpty _ _ := rfl
  view_clear _ _ := rfl

end ListLru

namespace CacheAnswer

/-- The number a miss gave the share it made; none for a hit or a failure. -/
def missSerial? : CacheAnswer → Option Nat
  | .miss _ n => some n
  | _ => none

end CacheAnswer

namespace ParserConfig

theorem effectiveCapacity_pos (c : ParserConfig) : 0 < c.effectiveCapacity := by
  unfold effectiveCapacity
  split <;> omega

end ParserConfig

namespace StatementCache

variable {σ : Type} {lru : LruStore σ String Shared}

/-- A run from the empty cache of `cfg` over the store `lru` to `cache`; `log` lists each parse
step's text and answer, in order. -/
inductive Run (lru : LruStore σ String Shared) (cfg : ParserConfig) :
    StatementCache σ → List (String × CacheAnswer) → Prop
  | new : Run lru cfg (new lru cfg) []
  | parse {cache : StatementCache σ} {log : List (String × CacheAnswer)} (sql : String) :
      Run lru cfg cache log →
        Run lru cfg (cache.parse lru sql).2 (log ++ [(sql, (cache.parse lru sql).1)])
  | clear {cache : StatementCache σ} {log : List (String × CacheAnswer)} :
      Run lru cfg cache log → Run lru cfg (cache.clear lru) log

/-! ## What `parse` does, by what the store answers -/

variable {cache : StatementCache σ} {sql : String}

theorem parse_of_get_some {v : Shared} {store : σ}
    (hg : lru.get cache.store (Text.trimWhiteSpace sql) = (some v, store)) :
    cache.parse lru sql = (.hit v.statement v.serial, { cache with store }) := by
  simp only [parse, hg]

theorem parse_of_get_none_error {store : σ} {err : ParseError}
    (hg : lru.get cache.store (Text.trimWhiteSpace sql) = (none, store))
    (herr : SqlDdl.parse cache.dialect (Text.trimWhiteSpace sql) = .error err) :
    cache.parse lru sql = (.failed err, { cache with store }) := by
  simp only [parse, hg, herr]

theorem parse_of_get_none_ok {store : σ} {st : Statement}
    (hg : lru.get cache.store (Text.trimWhiteSpace sql) = (none, store))
    (hst : SqlDdl.parse cache.dialect (Text.trimWhiteSpace sql) = .ok st) :
    cache.parse lru sql = (.miss st cache.shared,
      { cache with store := lru.put store (Text.trimWhiteSpace sql) ⟨st, cache.shared⟩,
                   shared := cache.shared + 1 }) := by
  simp only [parse, hg, hst]

/-! ## The three moves of `parse` on a lawful store -/

variable {view : σ → List (String × Shared)} {cap : Nat} {puts : List (String × Shared)}

/-- A text kept in the store is a hit: its entry comes to the front, and the others keep their
order. -/
theorem parse_of_mem (hlaw : lru.Lawful view) (hcap : 0 < cap)
    (hr : lru.Reaches cap cache.store puts) (hnd : ((view cache.store).map Prod.fst).Nodup)
    {l₁ l₂ : List (String × Shared)} {e : String × Shared}
    (he : view cache.store = l₁ ++ e :: l₂) (hk : e.1 = Text.trimWhiteSpace sql) :
    cache.parse lru sql =
        (.hit e.2.statement e.2.serial,
          { cache with store := (lru.get cache.store (Text.trimWhiteSpace sql)).2 }) ∧
      view (lru.get cache.store (Text.trimWhiteSpace sql)).2 = e :: (l₁ ++ l₂) := by
  obtain ⟨k, v⟩ := e
  dsimp only at hk ⊢
  rw [← hk]
  obtain ⟨hget, hview⟩ := hlaw.get hcap hr k
  rw [LruList.get_of_eq_append hnd he] at hget hview
  exact ⟨parse_of_get_some (hk ▸ Prod.ext hget rfl), hview⟩

/-- A text not kept that is no statement leaves the entries as they were. -/
theorem parse_of_not_mem_error (hlaw : lru.Lawful view) (hcap : 0 < cap)
    (hr : lru.Reaches cap cache.store puts)
    (hk : Text.trimWhiteSpace sql ∉ (view cache.store).map Prod.fst) {err : ParseError}
    (herr : SqlDdl.parse cache.dialect (Text.trimWhiteSpace sql) = .error err) :
    cache.parse lru sql =
        (.failed err, { cache with store := (lru.get cache.store (Text.trimWhiteSpace sql)).2 }) ∧
      view (lru.get cache.store (Text.trimWhiteSpace sql)).2 = view cache.store := by
  obtain ⟨hget, hview⟩ := hlaw.get hcap hr (Text.trimWhiteSpace sql)
  rw [LruList.get_of_not_mem hk] at hget hview
  exact ⟨parse_of_get_none_error (Prod.ext hget rfl) herr, hview⟩

/-- A text not kept that is a statement is parsed and kept in front as the next share; when the
store was full, its last entry gives way. -/
theorem parse_of_not_mem_ok (hlaw : lru.Lawful view) (hcap : 0 < cap)
    (hr : lru.Reaches cap cache.store puts)
    (hk : Text.trimWhiteSpace sql ∉ (view cache.store).map Prod.fst) {st : Statement}
    (hst : SqlDdl.parse cache.dialect (Text.trimWhiteSpace sql) = .ok st) :
    let store := lru.put (lru.get cache.store (Text.trimWhiteSpace sql)).2
      (Text.trimWhiteSpace sql) ⟨st, cache.shared⟩
    cache.parse lru sql =
        (.miss st cache.shared, { cache with store, shared := cache.shared + 1 }) ∧
      view store = (Text.trimWhiteSpace sql, ⟨st, cache.shared⟩) ::
        if (view cache.store).length = cap then (view cache.store).dropLast
        else view cache.store := by
  intro store
  obtain ⟨hget, hview⟩ := hlaw.get hcap hr (Text.trimWhiteSpace sql)
  rw [LruList.get_of_not_mem hk] at hget hview
  refine ⟨parse_of_get_none_ok (Prod.ext hget rfl) hst, ?_⟩
  rw [hlaw.put hcap (hr.get _), hview, LruList.put_of_not_mem hk]

/-! ## Along a run -/

/-- What holds along every run over a lawful store: the cache keeps the configured dialect, its
store is reached from a new one of the configured capacity, and holds at most that many entries
under distinct texts, each the share that the miss which parsed it answered; the misses logged so
far are numbered 0, 1, … in order. -/
structure Recency (lru : LruStore σ String Shared) (view : σ → List (String × Shared))
    (cfg : ParserConfig) (cache : StatementCache σ) (log : List (String × CacheAnswer)) : Prop where
  dialect_eq : cache.dialect = cfg.dialect
  reaches : ∃ puts, lru.Reaches cfg.effectiveCapacity cache.store puts
  keys_nodup : ((view cache.store).map Prod.fst).Nodup
  length_le : (view cache.store).length ≤ cfg.effectiveCapacity
  entry_logged : ∀ e ∈ view cache.store,
    ∃ sql, Text.trimWhiteSpace sql = e.1 ∧ (sql, .miss e.2.statement e.2.serial) ∈ log
  serials : log.filterMap (·.2.missSerial?) = List.range cache.shared

variable {cfg : ParserConfig} {log : List (String × CacheAnswer)}

theorem Recency.clear (hlaw : lru.Lawful view) (h : Recency lru view cfg cache log) :
    Recency lru view cfg (cache.clear lru) log := by
  obtain ⟨puts, hr⟩ := h.reaches
  have hview : view (cache.clear lru).store = [] :=
    hlaw.view_clear cfg.effectiveCapacity_pos hr
  exact {
    dialect_eq := h.dialect_eq
    reaches := ⟨puts, hr.clear⟩
    keys_nodup := by simp [hview]
    length_le := by simp [hview]
    entry_logged := by simp [hview]
    serials := h.serials }

theorem Recency.parse (hlaw : lru.Lawful view) (h : Recency lru view cfg cache log) (sql : String) :
    Recency lru view cfg (cache.parse lru sql).2 (log ++ [(sql, (cache.parse lru sql).1)]) := by
  obtain ⟨puts, hr⟩ := h.reaches
  have hcap := cfg.effectiveCapacity_pos
  have hlog : ∀ e ∈ view cache.store, ∃ s, Text.trimWhiteSpace s = e.1 ∧
      (s, .miss e.2.statement e.2.serial) ∈ log ++ [(sql, (cache.parse lru sql).1)] :=
    fun e he =>
      let ⟨s, hs, hm⟩ := h.entry_logged e he
      ⟨s, hs, List.mem_append_left _ hm⟩
  by_cases hk : Text.trimWhiteSpace sql ∈ (view cache.store).map Prod.fst
  · obtain ⟨e, hmem, hek⟩ := List.mem_map.1 hk
    obtain ⟨l₁, l₂, he⟩ := List.append_of_mem hmem
    obtain ⟨hp, hview⟩ := parse_of_mem hlaw hcap hr h.keys_nodup he hek
    have hperm : (e :: (l₁ ++ l₂)).Perm (view cache.store) := he ▸ List.perm_middle.symm
    rw [hp] at hlog ⊢
    exact {
      dialect_eq := h.dialect_eq
      reaches := ⟨puts, hr.get _⟩
      keys_nodup := hview ▸ (hperm.map Prod.fst).nodup_iff.2 h.keys_nodup
      length_le := hview ▸ hperm.length_eq ▸ h.length_le
      entry_logged := fun x hx => hlog x (hperm.subset (hview ▸ hx))
      serials := by
        rw [List.filterMap_append, h.serials]
        simp [CacheAnswer.missSerial?] }
  · rcases hres : SqlDdl.parse cache.dialect (Text.trimWhiteSpace sql) with err | st
    · obtain ⟨hp, hview⟩ := parse_of_not_mem_error hlaw hcap hr hk hres
      rw [hp] at hlog ⊢
      exact {
        dialect_eq := h.dialect_eq
        reaches := ⟨puts, hr.get _⟩
        keys_nodup := hview ▸ h.keys_nodup
        length_le := hview ▸ h.length_le
        entry_logged := hview ▸ hlog
        serials := by
          rw [List.filterMap_append, h.serials]
          simp [CacheAnswer.missSerial?] }
    · obtain ⟨hp, hview⟩ := parse_of_not_mem_ok hlaw hcap hr hk hres
      rw [hp] at hlog ⊢
      have hsub : List.Sublist (if (view cache.store).length = cfg.effectiveCapacity then
          (view cache.store).dropLast else view cache.store) (view cache.store) := by
        split
        · exact List.dropLast_sublist _
        · exact List.Sublist.refl _
      exact {
        dialect_eq := h.dialect_eq
        reaches := ⟨_, (hr.get _).put _ _⟩
        keys_nodup := by
          rw [hview]
          exact List.nodup_cons.2
            ⟨fun hm => hk ((hsub.map Prod.fst).subset hm), (hsub.map Prod.fst).nodup h.keys_nodup⟩
        length_le := by
          have := h.length_le
          rw [hview, List.length_cons]
          split
          · rw [List.length_dropLast]
            omega
          · omega
        entry_logged := by
          intro x hx
          rw [hview] at hx
          rcases List.mem_cons.1 hx with rfl | hx
          · exact ⟨sql, rfl, List.mem_append_right _ (List.mem_singleton_self _)⟩
          · exact hlog x (hsub.subset hx)
        serials := by
          rw [List.filterMap_append, h.serials]
          simp [CacheAnswer.missSerial?, List.range_succ] }

end StatementCache

end SqlDdl
