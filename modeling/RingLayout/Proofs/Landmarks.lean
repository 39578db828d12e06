import RingLayout.Proofs.Scalar.Real
import RingLayout.Proofs.Connection
import RingLayout.Proofs.Random
import RingLayout.Proofs.Walk

/-! # Landmarks

Landmarks are distinct. Random ones are drawn without replacement. A greedy one is as far as
possible from the landmarks before it, and in a connected graph whatever is not among these is
farther than they are themselves. So the distances between landmarks are zero between a landmark
and itself only.
-/

namespace RingLayout

namespace Adjacency

variable {adj : Adjacency} {marks : List Nat} {u v w d e : Nat}

theorem Steps.symm (hadj : adj.Mutual) {k : Nat} (h : adj.Steps u k v) : adj.Steps v k u := by
  induction h with
  | refl => exact .refl
  | @tail k v w _ hjoins ih =>
      have hback : adj.Steps w 1 v := .tail .refl (hadj.symm v w hjoins)
      exact Nat.add_comm 1 k ▸ hback.trans ih

theorem Away.symm (hadj : adj.Mutual) (h : adj.Away u v d) : adj.Away v u d :=
  ⟨h.steps.symm hadj, fun k hk => h.le k (hk.symm hadj)⟩

/-- The least number of hops from any of some marks to an index. -/
def Nearest (adj : Adjacency) (marks : List Nat) (v d : Nat) : Prop :=
  IsLeast {k | ∃ u ∈ marks, adj.Away u v k} d

theorem nearest_singleton : adj.Nearest [u] v d ↔ adj.Away u v d := by
  constructor
  · rintro ⟨⟨w, hw, haway⟩, -⟩
    rwa [List.mem_singleton.mp hw] at haway
  · refine fun h => ⟨⟨u, List.mem_singleton_self u, h⟩, ?_⟩
    rintro k ⟨w, hw, haway⟩
    rw [List.mem_singleton.mp hw] at haway
    exact (h.unique haway).le

/-- With a further mark the nearer one counts. -/
theorem Nearest.concat (h : adj.Nearest marks v d) (hw : adj.Away w v e) :
    adj.Nearest (marks ++ [w]) v (min d e) := by
  constructor
  · obtain ⟨u, hu, haway⟩ := h.1
    rcases Nat.le_total d e with hle | hle
    · exact ⟨u, List.mem_append_left _ hu, by rwa [Nat.min_eq_left hle]⟩
    · exact ⟨w, by simp, by rwa [Nat.min_eq_right hle]⟩
  · rintro k ⟨u, hu, haway⟩
    rcases List.mem_append.mp hu with hu | hu
    · exact (min_le_left d e).trans (h.2 ⟨u, hu, haway⟩)
    · rw [List.mem_singleton.mp hu] at haway
      exact (min_le_right d e).trans (hw.unique haway).le

/-- The marks alone are no hops away. -/
theorem Nearest.eq_zero_iff (h : adj.Nearest marks v d) : d = 0 ↔ v ∈ marks := by
  constructor
  · rintro rfl
    obtain ⟨u, hu, haway⟩ := h.1
    exact Away.zero_iff.mp haway ▸ hu
  · exact fun hv => Nat.le_zero.mp (h.2 ⟨v, hv, Away.zero_iff.mpr rfl⟩)

/-- Neighbours have each other, and every index reaches every other. -/
structure IsConnected (adj : Adjacency) : Prop extends adj.Mutual where
  reaches : ∀ u < adj.size, ∀ v < adj.size, adj.Reaches u v

theorem IsConnected.exists_away (h : adj.IsConnected) (hu : u < adj.size) (hv : v < adj.size) :
    ∃ d, adj.Away u v d :=
  (h.reaches u hu v hv).exists_away

theorem isConnected_connected (n : Nat) (pairs : List (Nat × Nat)) :
    (connected n pairs).IsConnected := by
  have hadj := (cleans_simple n pairs).isMutual
  by_cases hle : (simple n pairs).representatives.length ≤ 1
  · rw [connected_eq_simple hle]
    exact ⟨hadj, (length_representatives_le_one_iff hadj).mp hle⟩
  · have hhub := hubbed_connected hle
    exact ⟨hhub.isMutual hadj, fun _ hu _ hv => hhub.reaches hadj hu hv⟩

end Adjacency

namespace Embedding

open Adjacency (Away Nearest IsConnected)

variable {adj : Adjacency} {hopLength : ℝ} {marks : List Nat} {nearest : List ℝ} {u v d : Nat}

/-! ## Distances -/

theorem length_distances (adj : Adjacency) (hopLength : ℝ) (hv : v < adj.size)
    (hadj : adj.InRange) : (distances adj hopLength v).length = adj.size := by
  rw [distances, List.length_map, Array.length_toList]
  exact (Adjacency.measures_hopsFrom hadj hv).size_eq

theorem getElem?_distances (hadj : adj.InRange) (hv : v < adj.size) (h : adj.Away v u d) :
    (distances adj hopLength v)[u]? = some ((d : ℝ) * hopLength) := by
  have hentry := (Adjacency.hopsFrom_eq_some_iff hadj hv).mpr h
  rw [distances, List.getElem?_map, Array.getElem?_toList, hentry]
  rfl

/-- How far an index counts as being away from the marks before it. -/
noncomputable def apart (hopLength : ℝ) (hops : Nat) : ℝ := min 100000000 (hops * hopLength)

theorem apart_zero (hopLength : ℝ) : apart hopLength 0 = 0 := by
  rw [apart, Nat.cast_zero, zero_mul]
  norm_num

theorem apart_pos (hlength : 0 < hopLength) (hd : d ≠ 0) : 0 < apart hopLength d := by
  have hpos : (0 : ℝ) < d := Nat.cast_pos.mpr (Nat.pos_of_ne_zero hd)
  exact lt_min (by norm_num) (mul_pos hpos hlength)

theorem apart_min (hlength : 0 < hopLength) (d e : Nat) :
    apart hopLength (min d e) = min (apart hopLength d) (e * hopLength) := by
  rw [apart, apart, Nat.cast_min, min_mul_of_nonneg _ _ hlength.le, min_assoc]

/-! ## The greatest distance -/

/-- The first index of the greatest entry, or 0 where no entry is positive. -/
structure IsFarthest (l : List ℝ) (best : Nat) (greatest : ℝ) : Prop where
  le : ∀ i x, l[i]? = some x → x < greatest ∨ x = greatest ∧ best ≤ i
  attained : l[best]? = some greatest ∨ best = 0 ∧ greatest = 0

theorem isFarthest_farthest {before : List ℝ} {best : Nat} {greatest : ℝ} (rest : List ℝ)
    (h : IsFarthest before best greatest) : ∃ greatest',
      IsFarthest (before ++ rest) (farthest before.length best greatest rest) greatest' := by
  induction rest generalizing before best greatest with
  | nil => exact ⟨greatest, by rwa [List.append_nil]⟩
  | cons d rest ih =>
      have hentry : ∀ i x, (before ++ [d])[i]? = some x →
          before[i]? = some x ∨ i = before.length ∧ x = d := by
        intro i x hx
        rcases Nat.lt_or_ge i before.length with hi | hi
        · rw [List.getElem?_append_left hi] at hx
          exact .inl hx
        · rw [List.getElem?_append_right hi, List.getElem?_singleton] at hx
          split at hx
          · exact .inr ⟨by omega, (Option.some.inj hx).symm⟩
          · cases hx
      rw [farthest]
      split
      next hlt =>
        have hnext : IsFarthest (before ++ [d]) before.length d := by
          refine ⟨fun i x hx => ?_, .inl List.getElem?_concat_length⟩
          rcases hentry i x hx with hx | ⟨rfl, rfl⟩
          · rcases h.le i x hx with hless | ⟨rfl, -⟩
            · exact .inl (hless.trans hlt)
            · exact .inl hlt
          · exact .inr ⟨rfl, le_rfl⟩
        simpa using ih hnext
      next hge =>
        have hnext : IsFarthest (before ++ [d]) best greatest := by
          refine ⟨fun i x hx => ?_, ?_⟩
          · rcases hentry i x hx with hx | ⟨rfl, rfl⟩
            · exact h.le i x hx
            · rcases lt_or_eq_of_le (not_lt.mp hge) with hless | heq
              · exact .inl hless
              · refine .inr ⟨heq, ?_⟩
                rcases h.attained with hbest | ⟨rfl, -⟩
                · exact (List.getElem?_eq_some_iff.mp hbest).1.le
                · exact Nat.zero_le _
          · refine h.attained.imp_left fun hbest => ?_
            rwa [List.getElem?_append_left (List.getElem?_eq_some_iff.mp hbest).1]
        simpa using ih hnext

/-- With a positive entry, the first greatest entry is found. -/
theorem exists_farthest {l : List ℝ} {i : Nat} {x : ℝ} (hx : l[i]? = some x) (hpos : 0 < x) :
    ∃ greatest, 0 < greatest ∧ l[farthest 0 0 0.0 l]? = some greatest ∧
      ∀ j y, l[j]? = some y → y < greatest ∨ y = greatest ∧ farthest 0 0 0.0 l ≤ j := by
  have hzero : (0.0 : ℝ) = 0 := by norm_num
  have hnone : IsFarthest [] 0 (0.0 : ℝ) := ⟨fun i x hx => by simp at hx, .inr ⟨rfl, hzero⟩⟩
  obtain ⟨greatest, hfarthest⟩ := isFarthest_farthest l hnone
  have hgreatest : 0 < greatest := by
    rcases hfarthest.le i x hx with hless | ⟨rfl, -⟩
    · exact hpos.trans hless
    · exact hpos
  exact ⟨greatest, hgreatest, hfarthest.attained.resolve_right fun h => hgreatest.ne' h.2,
    hfarthest.le⟩

/-! ## Greedy landmarks -/

/-- The first of the indices that are as far as possible from the nearest mark. -/
structure FarthestFrom (adj : Adjacency) (hopLength : ℝ) (marks : List Nat) (v : Nat) : Prop where
  lt_size : v < adj.size
  exists_le : ∃ d, adj.Nearest marks v d ∧ ∀ u < adj.size, ∃ e, adj.Nearest marks u e ∧
    (apart hopLength e < apart hopLength d ∨ apart hopLength e = apart hopLength d ∧ v ≤ u)

/-- The list has the distance of every index from the nearest mark. -/
structure Records (adj : Adjacency) (hopLength : ℝ) (marks : List Nat) (nearest : List ℝ) :
    Prop where
  length_eq : nearest.length = adj.size
  entry : ∀ v < adj.size, ∃ d, adj.Nearest marks v d ∧ nearest[v]? = some (apart hopLength d)

/-- The list of distances with those from one more mark. -/
noncomputable def nearestWith (adj : Adjacency) (hopLength : ℝ) (v : Nat) (nearest : List ℝ) :
    List ℝ :=
  List.zipWith (fun d m => if d < m then d else m) (distances adj hopLength v) nearest

theorem greedyLandmarks_succ (adj : Adjacency) (hopLength : ℝ) (count v : Nat)
    (nearest : List ℝ) : greedyLandmarks adj hopLength (count + 1) v nearest =
      v :: greedyLandmarks adj hopLength count
        (farthest 0 0 0.0 (nearestWith adj hopLength v nearest))
        (nearestWith adj hopLength v nearest) := rfl

section Connected

variable (hadj : adj.IsConnected) (hlength : 0 < hopLength)
include hadj

theorem length_nearestWith (hv : v < adj.size) (hnearest : nearest.length = adj.size) :
    (nearestWith adj hopLength v nearest).length = adj.size := by
  rw [nearestWith, List.length_zipWith, length_distances adj hopLength hv hadj.inRange, hnearest,
    Nat.min_self]

theorem getElem?_nearestWith {m : ℝ} (hv : v < adj.size) (hd : adj.Away v u d)
    (hm : nearest[u]? = some m) :
    (nearestWith adj hopLength v nearest)[u]? = some (min m (d * hopLength)) := by
  rw [nearestWith, List.getElem?_zipWith, getElem?_distances hadj.inRange hv hd, hm, min_comm,
    min_def_lt]

theorem records_first (hv : v < adj.size) : Records adj hopLength [v]
    (nearestWith adj hopLength v (List.replicate adj.size unreachable)) where
  length_eq := length_nearestWith hadj hv List.length_replicate
  entry u hu := by
    obtain ⟨d, haway⟩ := hadj.exists_away hv hu
    have hm : (List.replicate adj.size (unreachable : ℝ))[u]? = some 100000000 := by
      rw [List.getElem?_replicate, if_pos hu, unreachable]
      norm_num
    exact ⟨d, Adjacency.nearest_singleton.mpr haway, getElem?_nearestWith hadj hv haway hm⟩

include hlength

theorem Records.concat (h : Records adj hopLength marks nearest) (hv : v < adj.size) :
    Records adj hopLength (marks ++ [v]) (nearestWith adj hopLength v nearest) where
  length_eq := length_nearestWith hadj hv h.length_eq
  entry u hu := by
    obtain ⟨d, hd, hentry⟩ := h.entry u hu
    obtain ⟨e, haway⟩ := hadj.exists_away hv hu
    refine ⟨min d e, hd.concat haway, ?_⟩
    rw [getElem?_nearestWith hadj hv haway hentry, apart_min hlength]

omit hadj in
/-- As long as not all indices are marks, the farthest index is another one. -/
theorem Records.farthest (h : Records adj hopLength marks nearest)
    (hfew : marks.length < adj.size) :
    FarthestFrom adj hopLength marks (farthest 0 0 0.0 nearest) ∧
      Embedding.farthest 0 0 0.0 nearest ∉ marks := by
  -- an index that is no mark is at a positive distance
  have hother : ∃ u < adj.size, u ∉ marks := by
    by_contra hall
    push Not at hall
    have hsub : (List.range adj.size).Subperm marks := List.subperm_of_subset List.nodup_range
      fun u hu => hall u (List.mem_range.mp hu)
    have hle := hsub.length_le
    rw [List.length_range] at hle
    omega
  obtain ⟨u, hu, hnot⟩ := hother
  obtain ⟨e, he, hentry⟩ := h.entry u hu
  have hpos := apart_pos hlength (mt he.eq_zero_iff.mp hnot)
  obtain ⟨greatest, hgreatest, hbest, hle⟩ := exists_farthest hentry hpos
  have hlt := (List.getElem?_eq_some_iff.mp hbest).1
  rw [h.length_eq] at hlt
  obtain ⟨d, hd, hentry⟩ := h.entry _ hlt
  obtain rfl : greatest = apart hopLength d := Option.some.inj (hbest.symm.trans hentry)
  refine ⟨⟨hlt, d, hd, fun u hu => ?_⟩, fun hmem => ?_⟩
  · obtain ⟨e, he, hentry⟩ := h.entry u hu
    exact ⟨e, he, hle u _ hentry⟩
  · rw [hd.eq_zero_iff.mpr hmem, apart_zero] at hgreatest
    exact lt_irrefl _ hgreatest

/-- Further landmarks after some marks. -/
structure Chosen (adj : Adjacency) (hopLength : ℝ) (marks : List Nat) (count : Nat)
    (later : List Nat) : Prop where
  length_eq : later.length = count
  lt_size : ∀ v ∈ later, v < adj.size
  nodup : (marks ++ later).Nodup
  farthest : ∀ i v, later[i]? = some v → FarthestFrom adj hopLength (marks ++ later.take i) v

theorem chosen_greedyLandmarks {count : Nat} (h : Records adj hopLength marks nearest)
    (hnodup : marks.Nodup) (hcount : marks.length + count ≤ adj.size) :
    Chosen adj hopLength marks count
      (greedyLandmarks adj hopLength count (Embedding.farthest 0 0 0.0 nearest) nearest) := by
  induction count generalizing marks nearest with
  | zero =>
      rw [greedyLandmarks]
      exact ⟨rfl, by simp, by simpa, by simp⟩
  | succ count ih =>
      obtain ⟨hfarthest, hnot⟩ := h.farthest hlength (by omega)
      rw [greedyLandmarks_succ]
      generalize Embedding.farthest 0 0 0.0 nearest = v at hfarthest hnot ⊢
      obtain ⟨hlater, hlt, hnodup', hnext⟩ := ih (h.concat hadj hlength hfarthest.lt_size)
        (by simpa [List.nodup_append] using ⟨hnodup, fun u hu heq => hnot (heq ▸ hu)⟩)
        (by simp; omega)
      constructor
      case length_eq => rw [List.length_cons, hlater]
      case lt_size => exact List.forall_mem_cons.mpr ⟨hfarthest.lt_size, hlt⟩
      case nodup => simpa using hnodup'
      case farthest =>
        intro i w hw
        cases i with
        | zero =>
            obtain rfl := Option.some.inj hw
            simpa using hfarthest
        | succ i => simpa using hnext i w hw

/-- Greedy landmarks from a first one on. -/
theorem greedyLandmarks_eq_cons (hv : v < adj.size) {count : Nat} (hcount : count + 1 ≤ adj.size) :
    ∃ later, greedyLandmarks adj hopLength (count + 1) v (List.replicate adj.size unreachable) =
      v :: later ∧ Chosen adj hopLength [v] count later := by
  rw [greedyLandmarks_succ]
  refine ⟨_, rfl, chosen_greedyLandmarks hadj hlength (records_first hadj hv) ?_ ?_⟩
  · exact List.nodup_singleton v
  · rw [List.length_singleton]
    omega

/-! ## All landmarks -/

/-- What the landmarks of a graph are. -/
structure Marks (adj : Adjacency) (s : Settings ℝ) (marks : List Nat) : Prop where
  length_eq : marks.length = min adj.size (max 2 s.sampleSize)
  lt_size : ∀ v ∈ marks, v < adj.size
  nodup : marks.Nodup
  /-- A greedy landmark is as far as possible from those before it. -/
  farthest : s.sampling = .greedy → ∀ i v, marks[i + 1]? = some v →
    FarthestFrom adj s.hopLength (marks.take (i + 1)) v

omit hlength in
theorem marks_landmarks (s : Settings ℝ) (hlength : 0 < s.hopLength) (hsize : 0 < adj.size)
    (rng : Random) : Marks adj s (landmarks adj s rng).1 := by
  have hcount : min adj.size (max s.sampleSize 2) = min adj.size (max 2 s.sampleSize) := by
    rw [max_comm]
  unfold landmarks
  dsimp only
  split
  next hsampling =>
    have hfirst := Random.nextIndex_lt (K := ℝ) rng hsize
    generalize (Random.nextIndex ℝ rng adj.size).1 = v at hfirst ⊢
    obtain ⟨count, heq⟩ : ∃ count, min adj.size (max s.sampleSize 2) = count + 1 :=
      Nat.exists_eq_succ_of_ne_zero (by omega)
    rw [heq] at hcount ⊢
    have hle : count + 1 ≤ adj.size := by omega
    obtain ⟨later, hmarks, hlater⟩ := greedyLandmarks_eq_cons hadj hlength hfirst hle
    rw [hmarks]
    constructor
    case length_eq => rw [List.length_cons, hlater.length_eq, hcount]
    case lt_size => exact List.forall_mem_cons.mpr ⟨hfirst, hlater.lt_size⟩
    case nodup => exact hlater.nodup
    case farthest => exact fun _ i w hw => hlater.farthest i w hw
  next hsampling =>
    constructor
    case length_eq =>
      rw [Random.length_distinct, hcount]
      omega
    case lt_size => exact fun v hv => Random.lt_of_mem_distinct hv
    case nodup => exact Random.nodup_distinct rng _ _
    case farthest =>
      intro hgreedy
      rw [hsampling] at hgreedy
      cases hgreedy

end Connected

/-! ## Distances between landmarks -/

/-- The entry in a column and a row of a matrix. -/
noncomputable def entry (columns : Array (Array ℝ)) (i j : Nat) : ℝ := (columns.getD i #[]).getD j 0

/-- A square matrix with zeros on the diagonal and positive entries elsewhere, the same across the
diagonal. -/
structure Separates (columns : Array (Array ℝ)) (n : Nat) : Prop where
  size_eq : columns.size = n
  size_column : ∀ i < n, (columns.getD i #[]).size = n
  symm : ∀ i < n, ∀ j < n, entry columns i j = entry columns j i
  diagonal : ∀ i < n, entry columns i i = 0
  pos : ∀ i < n, ∀ j < n, i ≠ j → 0 < entry columns i j

/-- The entries between landmarks are the squared distances. -/
theorem entry_betweenLandmarks (hadj : adj.InRange) (hlt : ∀ v ∈ marks, v < adj.size) {i j : Nat}
    (hi : marks[i]? = some u) (hj : marks[j]? = some v) (haway : adj.Away u v d) :
    entry (betweenLandmarks (squaredDistances adj hopLength marks) marks) i j =
      (d * hopLength) * (d * hopLength) := by
  have hdistance : (distances adj hopLength u)[v]? = some (d * hopLength) :=
    getElem?_distances hadj (hlt u (List.mem_of_getElem? hi)) haway
  simp only [entry, betweenLandmarks, squaredDistances, Array.getD_eq_getD_getElem?,
    Array.getElem?_map, List.getElem?_toArray, List.getElem?_map, hi, hj, hdistance,
    Option.map_some, Option.getD_some]

theorem separates_betweenLandmarks (hadj : adj.IsConnected) (hlength : 0 < hopLength)
    (hlt : ∀ v ∈ marks, v < adj.size) (hnodup : marks.Nodup) :
    Separates (betweenLandmarks (squaredDistances adj hopLength marks) marks) marks.length := by
  have hmark : ∀ i < marks.length, ∃ u, marks[i]? = some u ∧ u < adj.size := fun i hi =>
    ⟨marks[i], List.getElem?_eq_getElem hi, hlt _ (List.getElem_mem hi)⟩
  have hentry := fun {i j u v d} => @entry_betweenLandmarks adj hopLength marks u v d hadj.inRange
    hlt i j
  constructor
  case size_eq => simp [betweenLandmarks, squaredDistances]
  case size_column =>
    intro i hi
    simp [betweenLandmarks, squaredDistances, hi]
  case symm =>
    intro i hi j hj
    obtain ⟨u, hui, hu⟩ := hmark i hi
    obtain ⟨v, hvj, hv⟩ := hmark j hj
    obtain ⟨d, haway⟩ := hadj.exists_away hu hv
    rw [hentry hui hvj haway, hentry hvj hui (haway.symm hadj.toMutual)]
  case diagonal =>
    intro i hi
    obtain ⟨u, hui, -⟩ := hmark i hi
    rw [hentry hui hui (Adjacency.Away.zero_iff.mpr rfl), Nat.cast_zero, zero_mul, zero_mul]
  case pos =>
    intro i hi j hj hij
    obtain ⟨u, hui, hu⟩ := hmark i hi
    obtain ⟨v, hvj, hv⟩ := hmark j hj
    obtain ⟨d, haway⟩ := hadj.exists_away hu hv
    have hd : d ≠ 0 := by
      rintro rfl
      exact ne_of_getElem? hnodup hij hui hvj (Adjacency.Away.zero_iff.mp haway).symm
    have hpos : (0 : ℝ) < d := Nat.cast_pos.mpr (Nat.pos_of_ne_zero hd)
    rw [hentry hui hvj haway]
    exact mul_pos (mul_pos hpos hlength) (mul_pos hpos hlength)

/-- Wherever landmarks are taken, they are distinct, as many as asked for, and apart from each
other; greedy ones are the farthest in turn. -/
theorem landmarks_apart (n : Nat) (pairs : List (Nat × Nat)) (s : Settings ℝ) (rng : Random)
    (hlength : 0 < s.hopLength) (hsize : 2 < (Adjacency.connected n pairs).size) :
    Marks (Adjacency.connected n pairs) s (landmarks (Adjacency.connected n pairs) s rng).1 ∧
      Separates (betweenLandmarks
        (squaredDistances (Adjacency.connected n pairs) s.hopLength
          (landmarks (Adjacency.connected n pairs) s rng).1)
        (landmarks (Adjacency.connected n pairs) s rng).1)
        (landmarks (Adjacency.connected n pairs) s rng).1.length := by
  have hadj := Adjacency.isConnected_connected n pairs
  have hmarks := marks_landmarks hadj s hlength (by omega) rng
  exact ⟨hmarks, separates_betweenLandmarks hadj hlength hmarks.lt_size hmarks.nodup⟩

/-- A path and a triangle are joined through a seventh index. -/
theorem landmarks_apart_pathAndTriangle :
    (0 : ℝ) < 12.5 ∧ 2 < (Adjacency.connected 6 Adjacency.pathAndTriangle).size ∧
      Marks (Adjacency.connected 6 Adjacency.pathAndTriangle) ⟨.greedy, 3, 12.5, 50, 1e-7⟩
        (landmarks (Adjacency.connected 6 Adjacency.pathAndTriangle)
          (⟨.greedy, 3, 12.5, 50, 1e-7⟩ : Settings ℝ) (Random.ofSeed 1)).1 := by
  have hlength : (0 : ℝ) < 12.5 := by norm_num
  have hseven : (Adjacency.connected 6 Adjacency.pathAndTriangle).size = 7 := by cbv
  have hsize : 2 < (Adjacency.connected 6 Adjacency.pathAndTriangle).size := hseven ▸ by decide
  exact ⟨hlength, hsize, (landmarks_apart 6 Adjacency.pathAndTriangle
    ⟨.greedy, 3, 12.5, 50, 1e-7⟩ (Random.ofSeed 1) hlength hsize).1⟩

end Embedding

end RingLayout
