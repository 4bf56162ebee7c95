import Mathlib.Data.List.Nodup
import MyEtcd.Http.HttpServer
import MyEtcd.Raft.RaftNode

/-! The options of `main`, and which ids the nodes of one cluster get from them.
The cluster's members are numbered in the order of the string. A process looks for its own name while
it reads the string, so the name has to be known by then. -/
namespace MyEtcd
open Library

/-- What `main` sets of the configuration. -/
structure ServerConfig extends ClusterConfig where
  name : Bytes := ascii "default"
  dataDir : Bytes := ascii "./data"
  listenAddr : Bytes := ascii "0.0.0.0:2379"
  listenPeerAddr : Bytes := ascii "0.0.0.0:2380"
  initialCluster : List Bytes := []
  authToken : Bytes := []

/-- The variables of `ParseInitialCluster`. -/
structure ClusterParse where
  result : List Bytes := []
  idCounter : Nat := 1
  selfNodeId : Nat
  peerAddresses : OrderedMap Nat Bytes

namespace ClusterParse

/-- One part of the string; a part without an equals sign is passed over. -/
def step (selfName : Bytes) (s : ClusterParse) (part : Bytes) : ClusterParse :=
  match cut [61] part with
  | none => s
  | some (name, addr) =>
    { result := s.result ++ [part]
      idCounter := s.idCounter + 1
      selfNodeId := if name = selfName then s.idCounter else s.selfNodeId
      peerAddresses := s.peerAddresses.insert s.idCounter addr }

end ClusterParse

def parseInitialCluster (clusterStr selfName : Bytes) (selfNodeId : Nat)
    (peerAddresses : OrderedMap Nat Bytes) : ClusterParse :=
  (getlines 44 clusterStr).foldl (ClusterParse.step selfName) { selfNodeId, peerAddresses }

def setInitialCluster (config : ServerConfig) (clusterStr : Bytes) : ServerConfig :=
  let parsed := parseInitialCluster clusterStr config.name config.nodeId config.peerAddresses
  { config with
    initialCluster := parsed.result
    nodeId := parsed.selfNodeId
    peerAddresses := parsed.peerAddresses }

/-- The loop over the arguments, nothing if the process only prints its usage. -/
def parseOptions (config : ServerConfig) : List Bytes → Option ServerConfig
  | [] => some config
  | [arg] => if arg = ascii "--help" then none else some config
  | arg :: value :: rest =>
    if arg = ascii "--name" then parseOptions { config with name := value } rest
    else if arg = ascii "--data-dir" then parseOptions { config with dataDir := value } rest
    else if arg = ascii "--listen-addr" then parseOptions { config with listenAddr := value } rest
    else if arg = ascii "--listen-peer-addr" then
      parseOptions { config with listenPeerAddr := value } rest
    else if arg = ascii "--initial-cluster" then parseOptions (setInitialCluster config value) rest
    else if arg = ascii "--auth-token" then parseOptions { config with authToken := value } rest
    else if arg = ascii "--help" then none
    else parseOptions config (value :: rest)

def optionNames : List Bytes := [ascii "--name", ascii "--data-dir", ascii "--listen-addr",
  ascii "--listen-peer-addr", ascii "--initial-cluster", ascii "--auth-token", ascii "--help"]

/-- An option that has nothing to do with the node's id, or an argument that is no option. -/
inductive Setting where
  | dataDir (path : Bytes)
  | listenAddr (addr : Bytes)
  | listenPeerAddr (addr : Bytes)
  | authToken (token : Bytes)
  | ignored (arg : Bytes) (unnamed : arg ∉ optionNames)

namespace Setting

def argv : Setting → List Bytes
  | dataDir path => [ascii "--data-dir", path]
  | listenAddr addr => [ascii "--listen-addr", addr]
  | listenPeerAddr addr => [ascii "--listen-peer-addr", addr]
  | authToken token => [ascii "--auth-token", token]
  | ignored arg _ => [arg]

def apply (config : ServerConfig) : Setting → ServerConfig
  | dataDir path => { config with dataDir := path }
  | listenAddr addr => { config with listenAddr := addr }
  | listenPeerAddr addr => { config with listenPeerAddr := addr }
  | authToken token => { config with authToken := token }
  | ignored _ _ => config

end Setting

/-- The command line of a member of a cluster: a name and the cluster's string, in either order, and
other options anywhere. -/
structure CommandLine where
  name : Bytes
  nameFirst : Bool
  before : List Setting := []
  between : List Setting := []
  behind : List Setting := []

namespace CommandLine

def argv (c : CommandLine) (clusterStr : Bytes) : List Bytes :=
  let settings := List.flatMap Setting.argv
  if c.nameFirst then
    settings c.before ++ ([ascii "--name", c.name] ++ (settings c.between ++
      ([ascii "--initial-cluster", clusterStr] ++ settings c.behind)))
  else
    settings c.before ++ ([ascii "--initial-cluster", clusterStr] ++ (settings c.between ++
      ([ascii "--name", c.name] ++ settings c.behind)))

end CommandLine

def clusterMembers (clusterStr : Bytes) : List (Bytes × Bytes) :=
  (getlines 44 clusterStr).filterMap (cut [61])

def memberNames (clusterStr : Bytes) : List Bytes := (clusterMembers clusterStr).map Prod.fst

theorem parseOptions_setting (config : ServerConfig) (s : Setting) (rest : List Bytes) :
    parseOptions config (s.argv ++ rest) = parseOptions (s.apply config) rest := by
  cases s with
  | ignored arg unnamed =>
    simp only [optionNames, List.mem_cons, List.not_mem_nil, or_false, not_or] at unnamed
    obtain ⟨hname, hdir, hlisten, hpeer, hcluster, htoken, hhelp⟩ := unnamed
    cases rest with
    | nil => exact if_neg hhelp
    | cons value rest =>
      change parseOptions config (arg :: value :: rest) = parseOptions config (value :: rest)
      rw [parseOptions, if_neg hname, if_neg hdir, if_neg hlisten, if_neg hpeer, if_neg hcluster,
        if_neg htoken, if_neg hhelp]
  | dataDir path => rfl
  | listenAddr addr => rfl
  | listenPeerAddr addr => rfl
  | authToken token => rfl

theorem parseOptions_settings (config : ServerConfig) (settings : List Setting)
    (rest : List Bytes) : parseOptions config (settings.flatMap Setting.argv ++ rest) =
      parseOptions (settings.foldl Setting.apply config) rest := by
  induction settings generalizing config with
  | nil => rfl
  | cons s settings ih =>
    rw [List.flatMap_cons, List.append_assoc, parseOptions_setting, ih, List.foldl_cons]

/-- The options that other settings leave alone. -/
theorem foldl_setting (config : ServerConfig) (settings : List Setting) :
    (settings.foldl Setting.apply config).name = config.name ∧
      (settings.foldl Setting.apply config).toClusterConfig = config.toClusterConfig := by
  induction settings generalizing config with
  | nil => exact ⟨rfl, rfl⟩
  | cons s settings ih =>
    have hsame : (s.apply config).name = config.name ∧
        (s.apply config).toClusterConfig = config.toClusterConfig := by
      cases s <;> exact ⟨rfl, rfl⟩
    obtain ⟨hname, hcluster⟩ := ih (s.apply config)
    exact ⟨hname.trans hsame.1, hcluster.trans hsame.2⟩

theorem setInitialCluster_fresh {config : ServerConfig} {name : Bytes} (hname : config.name = name)
    (hcluster : config.toClusterConfig = {}) (clusterStr : Bytes) :
    (setInitialCluster config clusterStr).toClusterConfig =
      { nodeId := (parseInitialCluster clusterStr name 1 ∅).selfNodeId
        peerAddresses := (parseInitialCluster clusterStr name 1 ∅).peerAddresses } := by
  have hid : config.nodeId = 1 := congrArg ClusterConfig.nodeId hcluster
  have hpeers : config.peerAddresses = ∅ := congrArg ClusterConfig.peerAddresses hcluster
  rw [setInitialCluster, hname, hid, hpeers]

/-- A process knows the default name until it has read its own. -/
theorem parseOptions_argv (c : CommandLine) (clusterStr : Bytes) :
    ∃ config, parseOptions {} (c.argv clusterStr) = some config ∧
      config.nodeId = (parseInitialCluster clusterStr
        (if c.nameFirst then c.name else ascii "default") 1 ∅).selfNodeId ∧
      config.peerAddresses = (parseInitialCluster clusterStr
        (if c.nameFirst then c.name else ascii "default") 1 ∅).peerAddresses := by
  have hname (config : ServerConfig) (value : Bytes) (rest : List Bytes) :
      parseOptions config ([ascii "--name", value] ++ rest) =
        parseOptions { config with name := value } rest := rfl
  have hcluster (config : ServerConfig) (value : Bytes) (rest : List Bytes) :
      parseOptions config ([ascii "--initial-cluster", value] ++ rest) =
        parseOptions (setInitialCluster config value) rest := rfl
  have hend (config : ServerConfig) (settings : List Setting) :
      parseOptions config (settings.flatMap Setting.argv) =
        some (settings.foldl Setting.apply config) := by
    have h := parseOptions_settings config settings []
    rwa [List.append_nil] at h
  unfold CommandLine.argv
  dsimp only
  split_ifs with hfirst
  · obtain ⟨-, hbefore⟩ := foldl_setting {} c.before
    obtain ⟨hknown, hbetween⟩ :=
      foldl_setting { c.before.foldl Setting.apply {} with name := c.name } c.between
    rw [parseOptions_settings, hname, parseOptions_settings, hcluster, hend]
    have hids := (foldl_setting (setInitialCluster _ clusterStr) c.behind).2.trans
      (setInitialCluster_fresh hknown (hbetween.trans hbefore) clusterStr)
    exact ⟨_, rfl, congrArg ClusterConfig.nodeId hids, congrArg ClusterConfig.peerAddresses hids⟩
  · obtain ⟨hknown, hbefore⟩ := foldl_setting {} c.before
    have hids := setInitialCluster_fresh hknown hbefore clusterStr
    obtain ⟨-, hbetween⟩ := foldl_setting
      (setInitialCluster (c.before.foldl Setting.apply {}) clusterStr) c.between
    rw [parseOptions_settings, hcluster, parseOptions_settings, hname, hend]
    have hids' := (foldl_setting { c.between.foldl Setting.apply
      (setInitialCluster (c.before.foldl Setting.apply {}) clusterStr) with name := c.name }
        c.behind).2.trans (hbetween.trans hids)
    exact ⟨_, rfl, congrArg ClusterConfig.nodeId hids', congrArg ClusterConfig.peerAddresses hids'⟩

section Members
variable {lines : List Bytes} {selfName : Bytes} {s : ClusterParse}

theorem foldl_step_cons (line : Bytes) : (line :: lines).foldl (ClusterParse.step selfName) s =
    lines.foldl (ClusterParse.step selfName) (s.step selfName line) := rfl

/-- The members get the ids from the counter on, in their order. -/
theorem get?_foldl_step (id : Nat) :
    (lines.foldl (ClusterParse.step selfName) s).peerAddresses.get? id =
      (if s.idCounter ≤ id then
        ((lines.filterMap (cut [61]))[id - s.idCounter]?).map Prod.snd else none).or
          (s.peerAddresses.get? id) := by
  induction lines generalizing s with
  | nil => simp
  | cons line lines ih =>
    rw [foldl_step_cons, ih, ClusterParse.step]
    cases hcut : cut [61] line with
    | none => rw [List.filterMap_cons_none hcut]
    | some m =>
      rw [List.filterMap_cons_some hcut]
      dsimp only
      rw [OrderedMap.get?_insert]
      rcases Nat.lt_trichotomy id s.idCounter with hlt | rfl | hgt
      · rw [if_neg (by omega), if_neg (by omega), if_neg (by omega)]
      · rw [if_neg (by omega), if_pos rfl, if_pos le_rfl, Nat.sub_self]
        rfl
      · obtain ⟨k, hk⟩ : ∃ k, id - s.idCounter = k + 1 := ⟨id - s.idCounter - 1, by omega⟩
        have hk' : id - (s.idCounter + 1) = k := by omega
        rw [if_pos (by omega), if_neg (by omega), if_pos (by omega), hk, hk',
          List.getElem?_cons_succ]

/-- Of distinct names, the one that is looked for gives its number. -/
theorem selfNodeId_foldl_step
    (hdistinct : ((lines.filterMap (cut [61])).map Prod.fst).Nodup) :
    (lines.foldl (ClusterParse.step selfName) s).selfNodeId =
      if selfName ∈ (lines.filterMap (cut [61])).map Prod.fst then
        s.idCounter + ((lines.filterMap (cut [61])).map Prod.fst).idxOf selfName
      else s.selfNodeId := by
  induction lines generalizing s with
  | nil => simp
  | cons line lines ih =>
    rw [foldl_step_cons, ClusterParse.step]
    cases hcut : cut [61] line with
    | none =>
      rw [List.filterMap_cons_none hcut] at hdistinct ⊢
      exact ih hdistinct
    | some m =>
      rw [List.filterMap_cons_some hcut, List.map_cons] at hdistinct ⊢
      obtain ⟨hnew, hdistinct⟩ := List.nodup_cons.mp hdistinct
      rw [ih hdistinct]
      dsimp only
      by_cases hself : m.1 = selfName
      · subst hself
        rw [if_neg hnew, if_pos rfl, if_pos List.mem_cons_self, List.idxOf_cons_self, Nat.add_zero]
      · by_cases hin : selfName ∈ (lines.filterMap (cut [61])).map Prod.fst
        · rw [if_pos hin, if_pos (List.mem_cons_of_mem _ hin), List.idxOf_cons_ne _ hself]
          omega
        · rw [if_neg hin, if_neg hself, if_neg]
          exact fun hmem => (List.mem_cons.mp hmem).elim (fun heq => hself heq.symm) hin

end Members

def addressOf (clusterStr name : Bytes) : Option Bytes :=
  ((clusterMembers clusterStr).find? fun m => m.1 = name).map Prod.snd

/-- The member whose id a process takes. If the string comes before the name, it is the member with
the default name, or the first one. -/
def standIn (clusterStr : Bytes) (c : CommandLine) : Bytes :=
  if c.nameFirst then c.name
  else if ascii "default" ∈ memberNames clusterStr then ascii "default"
  else (memberNames clusterStr).headD []

/-- What has to hold of two nodes of one cluster. -/
def Distinguished (clusterStr : Bytes) (a b : CommandLine) : Prop :=
  ∃ ca cb, parseOptions {} (a.argv clusterStr) = some ca ∧
    parseOptions {} (b.argv clusterStr) = some cb ∧
    (RaftNode.ofConfig ca.toClusterConfig).nodeId ≠ (RaftNode.ofConfig cb.toClusterConfig).nodeId ∧
    ca.peerAddresses = cb.peerAddresses ∧
    ca.peerAddresses.get? ca.nodeId = addressOf clusterStr a.name ∧
    cb.peerAddresses.get? cb.nodeId = addressOf clusterStr b.name

theorem getElem?_idxOf {members : List (Bytes × Bytes)} {name : Bytes}
    (h : name ∈ members.map Prod.fst) : (members[(members.map Prod.fst).idxOf name]?).map Prod.snd =
      (members.find? fun m => m.1 = name).map Prod.snd := by
  induction members with
  | nil => cases h
  | cons m members ih =>
    rw [List.map_cons]
    by_cases hname : m.1 = name
    · rw [hname, List.idxOf_cons_self,
        List.find?_cons_of_pos (p := fun m : Bytes × Bytes => m.1 = name) (decide_eq_true hname)]
      rfl
    · have hrest := (List.mem_cons.mp h).resolve_left fun heq => hname heq.symm
      rw [List.idxOf_cons_ne _ hname, List.getElem?_cons_succ, ih hrest,
        List.find?_cons_of_neg (by simpa using hname)]

section Cluster
variable {clusterStr : Bytes} {c : CommandLine}

theorem standIn_mem (h : c.name ∈ memberNames clusterStr) :
    standIn clusterStr c ∈ memberNames clusterStr := by
  unfold standIn
  split_ifs with hfirst hdefault
  · exact h
  · exact hdefault
  · cases hnames : memberNames clusterStr with
    | nil =>
      rw [hnames] at h
      cases h
    | cons first rest => exact List.mem_cons_self

theorem exists_config (hdistinct : (memberNames clusterStr).Nodup)
    (h : c.name ∈ memberNames clusterStr) :
    ∃ config, parseOptions {} (c.argv clusterStr) = some config ∧
      config.nodeId = 1 + (memberNames clusterStr).idxOf (standIn clusterStr c) ∧
      ∀ id, config.peerAddresses.get? id =
        if 1 ≤ id then ((clusterMembers clusterStr)[id - 1]?).map Prod.snd else none := by
  obtain ⟨config, hparsed, hid, hpeers⟩ := parseOptions_argv c clusterStr
  refine ⟨config, hparsed, ?_, fun id => ?_⟩
  · rw [hid, parseInitialCluster, selfNodeId_foldl_step hdistinct, standIn]
    change (if _ ∈ memberNames clusterStr then 1 + (memberNames clusterStr).idxOf _ else 1) = _
    split_ifs with hfirst hdefault
    · rfl
    · rfl
    · cases hnames : memberNames clusterStr with
      | nil =>
        rw [hnames] at h
        cases h
      | cons first rest => rw [List.headD_cons, List.idxOf_cons_self]
  · rw [hpeers, parseInitialCluster, get?_foldl_step]
    exact Option.or_none

theorem get?_standIn {config : ServerConfig} (h : c.name ∈ memberNames clusterStr)
    (hid : config.nodeId = 1 + (memberNames clusterStr).idxOf (standIn clusterStr c))
    (hpeers : ∀ id, config.peerAddresses.get? id =
      if 1 ≤ id then ((clusterMembers clusterStr)[id - 1]?).map Prod.snd else none) :
    config.peerAddresses.get? config.nodeId = addressOf clusterStr (standIn clusterStr c) := by
  rw [hpeers, hid, if_pos (Nat.le_add_right 1 _), Nat.add_sub_cancel_left]
  exact getElem?_idxOf (standIn_mem h)

end Cluster

/-- Two nodes of one cluster are told apart, and know their own addresses, if and only if their
stand-ins are different members with the addresses of the nodes themselves. -/
theorem distinguished_iff {clusterStr : Bytes} (hdistinct : (memberNames clusterStr).Nodup)
    {a b : CommandLine} (ha : a.name ∈ memberNames clusterStr)
    (hb : b.name ∈ memberNames clusterStr) :
    Distinguished clusterStr a b ↔ standIn clusterStr a ≠ standIn clusterStr b ∧
      addressOf clusterStr (standIn clusterStr a) = addressOf clusterStr a.name ∧
      addressOf clusterStr (standIn clusterStr b) = addressOf clusterStr b.name := by
  obtain ⟨ca, hca, hida, hpeersa⟩ := exists_config hdistinct ha
  obtain ⟨cb, hcb, hidb, hpeersb⟩ := exists_config hdistinct hb
  have howna := get?_standIn ha hida hpeersa
  have hownb := get?_standIn hb hidb hpeersb
  have hids : ca.nodeId ≠ cb.nodeId ↔ standIn clusterStr a ≠ standIn clusterStr b := by
    rw [hida, hidb, Ne, Nat.add_left_cancel_iff, List.idxOf_inj (standIn_mem ha)]
  have hpeers : ca.peerAddresses = cb.peerAddresses :=
    OrderedMap.ext_get? fun id => (hpeersa id).trans (hpeersb id).symm
  constructor
  · rintro ⟨ca', cb', hca', hcb', hne, -, hmapa, hmapb⟩
    obtain rfl := Option.some.inj (hca.symm.trans hca')
    obtain rfl := Option.some.inj (hcb.symm.trans hcb')
    exact ⟨hids.mp hne, howna.symm.trans hmapa, hownb.symm.trans hmapb⟩
  · rintro ⟨hne, hmapa, hmapb⟩
    exact ⟨ca, cb, hca, hcb, hids.mpr hne, hpeers, howna.trans hmapa, hownb.trans hmapb⟩

def twoMembers : Bytes := ascii "n1=h1:2380,n2=h2:2380"

def memberProcess (name : String) (nameFirst : Bool) : CommandLine := { name := ascii name, nameFirst }

theorem distinguished_iff_nameFirst :
    Distinguished twoMembers (memberProcess "n1" true) (memberProcess "n2" true) :=
  (distinguished_iff (by decide) (by decide) (by decide)).mpr ⟨by decide, rfl, rfl⟩

/-- With the string in front of the name, both of them are node 1. -/
theorem nameLast_same_id :
    ¬ Distinguished twoMembers (memberProcess "n1" false) (memberProcess "n2" false) := by
  have hdistinct : (memberNames twoMembers).Nodup := by decide
  have ha : (memberProcess "n1" false).name ∈ memberNames twoMembers := by decide
  have hb : (memberProcess "n2" false).name ∈ memberNames twoMembers := by decide
  obtain ⟨ca, hca, hida, -⟩ := exists_config hdistinct ha
  obtain ⟨cb, hcb, hidb, -⟩ := exists_config hdistinct hb
  rintro ⟨ca', cb', hca', hcb', hne, -⟩
  obtain rfl := Option.some.inj (hca.symm.trans hca')
  obtain rfl := Option.some.inj (hcb.symm.trans hcb')
  exact hne (hida.trans hidb.symm)

end MyEtcd
