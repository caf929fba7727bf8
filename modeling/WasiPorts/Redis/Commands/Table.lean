import Mathlib.Data.List.Basic

/-!
# The command table of the WASI build

`commands.def` as far as dispatching reads it: the declared name, the handler, the arity and the
flags of every command, and the subcommand arrays. A container has a null handler. The scripting
engine is left out of the WASI build: its commands are gone from the table, while the containers
FUNCTION and SCRIPT are still there with empty subcommand arrays.
-/

namespace WasiPorts.Redis.Commands

/-- The command flags of `commands.def`. -/
inductive CmdFlag where
  | admin | allowBusy | asking | blocking | denyoom | fast | loading | mayReplicate | noscript
  | noAsyncLoading | noAuth | noMulti | onlySentinel | protectedCmd | pubsub | readonly | sentinel
  | skipSlowlog | stale | touchesArbitraryKeys | write
  deriving DecidableEq, Repr

/-- The command handlers. -/
inductive Proc where
  | clusterCommand | clientCommand | clientSetinfoCommand | objectCommand | pubsubCommand
  | sentinelCommand | aclCommand | commandCountCommand | commandDocsCommand | commandGetKeysCommand
  | commandGetKeysAndFlagsCommand | commandHelpCommand | commandInfoCommand | commandListCommand
  | configGetCommand | configHelpCommand | configResetStatCommand | configRewriteCommand
  | configSetCommand | latencyCommand | memoryCommand | moduleCommand | slowlogCommand
  | xgroupCommand | xinfoCommand | bitcountCommand | bitfieldCommand | bitfieldroCommand
  | bitopCommand | bitposCommand | getbitCommand | setbitCommand | askingCommand | readonlyCommand
  | readwriteCommand | authCommand | echoCommand | helloCommand | pingCommand | quitCommand
  | resetCommand | selectCommand | copyCommand | delCommand | dumpCommand | existsCommand
  | expireCommand | expireatCommand | expiretimeCommand | keysCommand | migrateCommand
  | moveCommand | persistCommand | pexpireCommand | pexpireatCommand | pexpiretimeCommand
  | pttlCommand | randomkeyCommand | renameCommand | renamenxCommand | restoreCommand | scanCommand
  | sortCommand | sortroCommand | touchCommand | ttlCommand | typeCommand | unlinkCommand
  | waitCommand | waitaofCommand | geoaddCommand | geodistCommand | geohashCommand | geoposCommand
  | georadiusCommand | georadiusbymemberCommand | georadiusbymemberroCommand | georadiusroCommand
  | geosearchCommand | geosearchstoreCommand | hdelCommand | hexistsCommand | hexpireCommand
  | hexpireatCommand | hexpiretimeCommand | hgetCommand | hgetallCommand | hincrbyCommand
  | hincrbyfloatCommand | hkeysCommand | hlenCommand | hmgetCommand | hsetCommand | hpersistCommand
  | hpexpireCommand | hpexpireatCommand | hpexpiretimeCommand | hpttlCommand | hrandfieldCommand
  | hscanCommand | hsetnxCommand | hstrlenCommand | httlCommand | hvalsCommand | pfaddCommand
  | pfcountCommand | pfdebugCommand | pfmergeCommand | pfselftestCommand | blmoveCommand
  | blmpopCommand | blpopCommand | brpopCommand | brpoplpushCommand | lindexCommand
  | linsertCommand | llenCommand | lmoveCommand | lmpopCommand | lpopCommand | lposCommand
  | lpushCommand | lpushxCommand | lrangeCommand | lremCommand | lsetCommand | ltrimCommand
  | rpopCommand | rpoplpushCommand | rpushCommand | rpushxCommand | psubscribeCommand
  | publishCommand | punsubscribeCommand | spublishCommand | ssubscribeCommand | subscribeCommand
  | sunsubscribeCommand | unsubscribeCommand | bgrewriteaofCommand | bgsaveCommand | commandCommand
  | dbsizeCommand | debugCommand | failoverCommand | flushallCommand | flushdbCommand | infoCommand
  | lastsaveCommand | lolwutCommand | monitorCommand | syncCommand | replconfCommand
  | replicaofCommand | roleCommand | saveCommand | shutdownCommand | swapdbCommand | timeCommand
  | saddCommand | scardCommand | sdiffCommand | sdiffstoreCommand | sinterCommand
  | sinterCardCommand | sinterstoreCommand | sismemberCommand | smismemberCommand | smoveCommand
  | spopCommand | srandmemberCommand | sremCommand | sscanCommand | sunionCommand
  | sunionstoreCommand | bzmpopCommand | bzpopmaxCommand | bzpopminCommand | zaddCommand
  | zcardCommand | zcountCommand | zdiffCommand | zdiffstoreCommand | zincrbyCommand
  | zinterCommand | zinterCardCommand | zinterstoreCommand | zlexcountCommand | zmpopCommand
  | zmscoreCommand | zpopmaxCommand | zpopminCommand | zrandmemberCommand | zrangeCommand
  | zrangebylexCommand | zrangebyscoreCommand | zrangestoreCommand | zrankCommand | zremCommand
  | zremrangebylexCommand | zremrangebyrankCommand | zremrangebyscoreCommand | zrevrangeCommand
  | zrevrangebylexCommand | zrevrangebyscoreCommand | zrevrankCommand | zscanCommand
  | zscoreCommand | zunionCommand | zunionstoreCommand | xackCommand | xaddCommand
  | xautoclaimCommand | xclaimCommand | xdelCommand | xlenCommand | xpendingCommand | xrangeCommand
  | xreadCommand | xrevrangeCommand | xsetidCommand | xtrimCommand | appendCommand | decrCommand
  | decrbyCommand | getCommand | getdelCommand | getexCommand | getrangeCommand | getsetCommand
  | incrCommand | incrbyCommand | incrbyfloatCommand | lcsCommand | mgetCommand | msetCommand
  | msetnxCommand | psetexCommand | setCommand | setexCommand | setnxCommand | setrangeCommand
  | strlenCommand | discardCommand | execCommand | multiCommand | unwatchCommand | watchCommand
  deriving DecidableEq

/-- What `struct redisCommand` says about a command by itself; `proc = none` is a null handler. -/
structure Entry where
  declaredName : String
  proc : Option Proc
  arity : Int
  flags : List CmdFlag
  deriving DecidableEq

/-- A row of `redisCommandTable` with its subcommand array. -/
structure Command extends Entry where
  subcommands : List Entry
  deriving DecidableEq

def Entry.has (e : Entry) (f : CmdFlag) : Bool := f ∈ e.flags

def entry (name : String) (proc : Proc) (arity : Int) (flags : List CmdFlag) : Entry :=
  ⟨name, some proc, arity, flags⟩

def command (name : String) (proc : Proc) (arity : Int) (flags : List CmdFlag) : Command :=
  ⟨⟨name, some proc, arity, flags⟩, []⟩

def container (name : String) (arity : Int) (flags : List CmdFlag) (subcommands : List Entry) :
    Command :=
  ⟨⟨name, none, arity, flags⟩, subcommands⟩

/-! ## Subcommand arrays -/

def clusterSubcommands : List Entry := [
  entry "addslots" .clusterCommand (-3) [.noAsyncLoading, .admin, .stale],
  entry "addslotsrange" .clusterCommand (-4) [.noAsyncLoading, .admin, .stale],
  entry "bumpepoch" .clusterCommand 2 [.noAsyncLoading, .admin, .stale],
  entry "count-failure-reports" .clusterCommand 3 [.admin, .stale],
  entry "countkeysinslot" .clusterCommand 3 [.stale],
  entry "delslots" .clusterCommand (-3) [.noAsyncLoading, .admin, .stale],
  entry "delslotsrange" .clusterCommand (-4) [.noAsyncLoading, .admin, .stale],
  entry "failover" .clusterCommand (-2) [.noAsyncLoading, .admin, .stale],
  entry "flushslots" .clusterCommand 2 [.noAsyncLoading, .admin, .stale],
  entry "forget" .clusterCommand 3 [.noAsyncLoading, .admin, .stale],
  entry "getkeysinslot" .clusterCommand 4 [.stale],
  entry "help" .clusterCommand 2 [.loading, .stale],
  entry "info" .clusterCommand 2 [.stale],
  entry "keyslot" .clusterCommand 3 [.stale],
  entry "links" .clusterCommand 2 [.stale],
  entry "meet" .clusterCommand (-4) [.noAsyncLoading, .admin, .stale],
  entry "myid" .clusterCommand 2 [.stale],
  entry "myshardid" .clusterCommand 2 [.stale],
  entry "nodes" .clusterCommand 2 [.stale],
  entry "replicas" .clusterCommand 3 [.admin, .stale],
  entry "replicate" .clusterCommand 3 [.noAsyncLoading, .admin, .stale],
  entry "reset" .clusterCommand (-2) [.admin, .stale, .noscript],
  entry "saveconfig" .clusterCommand 2 [.noAsyncLoading, .admin, .stale],
  entry "set-config-epoch" .clusterCommand 3 [.noAsyncLoading, .admin, .stale],
  entry "setslot" .clusterCommand (-4) [.noAsyncLoading, .admin, .stale],
  entry "shards" .clusterCommand 2 [.loading, .stale],
  entry "slaves" .clusterCommand 3 [.admin, .stale],
  entry "slots" .clusterCommand 2 [.loading, .stale]]

def clientSubcommands : List Entry := [
  entry "caching" .clientCommand 3 [.noscript, .loading, .stale, .sentinel],
  entry "getname" .clientCommand 2 [.noscript, .loading, .stale, .sentinel],
  entry "getredir" .clientCommand 2 [.noscript, .loading, .stale, .sentinel],
  entry "help" .clientCommand 2 [.loading, .stale, .sentinel],
  entry "id" .clientCommand 2 [.noscript, .loading, .stale, .sentinel],
  entry "info" .clientCommand 2 [.noscript, .loading, .stale, .sentinel],
  entry "kill" .clientCommand (-3) [.admin, .noscript, .loading, .stale, .sentinel],
  entry "list" .clientCommand (-2) [.admin, .noscript, .loading, .stale, .sentinel],
  entry "no-evict" .clientCommand 3 [.admin, .noscript, .loading, .stale, .sentinel],
  entry "no-touch" .clientCommand 3 [.noscript, .loading, .stale],
  entry "pause" .clientCommand (-3) [.admin, .noscript, .loading, .stale, .sentinel],
  entry "reply" .clientCommand 3 [.noscript, .loading, .stale, .sentinel],
  entry "setinfo" .clientSetinfoCommand 4 [.noscript, .loading, .stale, .sentinel],
  entry "setname" .clientCommand 3 [.noscript, .loading, .stale, .sentinel],
  entry "tracking" .clientCommand (-3) [.noscript, .loading, .stale, .sentinel],
  entry "trackinginfo" .clientCommand 2 [.noscript, .loading, .stale, .sentinel],
  entry "unblock" .clientCommand (-3) [.admin, .noscript, .loading, .stale, .sentinel],
  entry "unpause" .clientCommand 2 [.admin, .noscript, .loading, .stale, .sentinel]]

def objectSubcommands : List Entry := [
  entry "encoding" .objectCommand 3 [.readonly],
  entry "freq" .objectCommand 3 [.readonly],
  entry "help" .objectCommand 2 [.loading, .stale],
  entry "idletime" .objectCommand 3 [.readonly],
  entry "refcount" .objectCommand 3 [.readonly]]

def pubsubSubcommands : List Entry := [
  entry "channels" .pubsubCommand (-2) [.pubsub, .loading, .stale],
  entry "help" .pubsubCommand 2 [.loading, .stale],
  entry "numpat" .pubsubCommand 2 [.pubsub, .loading, .stale],
  entry "numsub" .pubsubCommand (-2) [.pubsub, .loading, .stale],
  entry "shardchannels" .pubsubCommand (-2) [.pubsub, .loading, .stale],
  entry "shardnumsub" .pubsubCommand (-2) [.pubsub, .loading, .stale]]

def functionSubcommands : List Entry := []

def scriptSubcommands : List Entry := []

def sentinelSubcommands : List Entry := [
  entry "ckquorum" .sentinelCommand 3 [.admin, .sentinel, .onlySentinel],
  entry "config" .sentinelCommand (-4) [.admin, .sentinel, .onlySentinel],
  entry "debug" .sentinelCommand (-2) [.admin, .sentinel, .onlySentinel],
  entry "failover" .sentinelCommand 3 [.admin, .sentinel, .onlySentinel],
  entry "flushconfig" .sentinelCommand 2 [.admin, .sentinel, .onlySentinel],
  entry "get-master-addr-by-name" .sentinelCommand 3 [.admin, .sentinel, .onlySentinel],
  entry "help" .sentinelCommand 2 [.loading, .stale, .sentinel, .onlySentinel],
  entry "info-cache" .sentinelCommand (-3) [.admin, .sentinel, .onlySentinel],
  entry "is-master-down-by-addr" .sentinelCommand 6 [.admin, .sentinel, .onlySentinel],
  entry "master" .sentinelCommand 3 [.admin, .sentinel, .onlySentinel],
  entry "masters" .sentinelCommand 2 [.admin, .sentinel, .onlySentinel],
  entry "monitor" .sentinelCommand 6 [.admin, .sentinel, .onlySentinel],
  entry "myid" .sentinelCommand 2 [.admin, .sentinel, .onlySentinel],
  entry "pending-scripts" .sentinelCommand 2 [.admin, .sentinel, .onlySentinel],
  entry "remove" .sentinelCommand 3 [.admin, .sentinel, .onlySentinel],
  entry "replicas" .sentinelCommand 3 [.admin, .sentinel, .onlySentinel],
  entry "reset" .sentinelCommand 3 [.admin, .sentinel, .onlySentinel],
  entry "sentinels" .sentinelCommand 3 [.admin, .sentinel, .onlySentinel],
  entry "set" .sentinelCommand (-5) [.admin, .sentinel, .onlySentinel],
  entry "simulate-failure" .sentinelCommand (-3) [.admin, .sentinel, .onlySentinel],
  entry "slaves" .sentinelCommand 3 [.admin, .sentinel, .onlySentinel]]

def aclSubcommands : List Entry := [
  entry "cat" .aclCommand (-2) [.noscript, .loading, .stale, .sentinel],
  entry "deluser" .aclCommand (-3) [.admin, .noscript, .loading, .stale, .sentinel],
  entry "dryrun" .aclCommand (-4) [.admin, .noscript, .loading, .stale, .sentinel],
  entry "genpass" .aclCommand (-2) [.noscript, .loading, .stale, .sentinel],
  entry "getuser" .aclCommand 3 [.admin, .noscript, .loading, .stale, .sentinel],
  entry "help" .aclCommand 2 [.loading, .stale, .sentinel],
  entry "list" .aclCommand 2 [.admin, .noscript, .loading, .stale, .sentinel],
  entry "load" .aclCommand 2 [.admin, .noscript, .loading, .stale, .sentinel],
  entry "log" .aclCommand (-2) [.admin, .noscript, .loading, .stale, .sentinel],
  entry "save" .aclCommand 2 [.admin, .noscript, .loading, .stale, .sentinel],
  entry "setuser" .aclCommand (-3) [.admin, .noscript, .loading, .stale, .sentinel],
  entry "users" .aclCommand 2 [.admin, .noscript, .loading, .stale, .sentinel],
  entry "whoami" .aclCommand 2 [.noscript, .loading, .stale, .sentinel]]

def commandSubcommands : List Entry := [
  entry "count" .commandCountCommand 2 [.loading, .stale, .sentinel],
  entry "docs" .commandDocsCommand (-2) [.loading, .stale, .sentinel],
  entry "getkeys" .commandGetKeysCommand (-3) [.loading, .stale, .sentinel],
  entry "getkeysandflags" .commandGetKeysAndFlagsCommand (-3) [.loading, .stale, .sentinel],
  entry "help" .commandHelpCommand 2 [.loading, .stale, .sentinel],
  entry "info" .commandInfoCommand (-2) [.loading, .stale, .sentinel],
  entry "list" .commandListCommand (-2) [.loading, .stale, .sentinel]]

def configSubcommands : List Entry := [
  entry "get" .configGetCommand (-3) [.admin, .noscript, .loading, .stale],
  entry "help" .configHelpCommand 2 [.loading, .stale],
  entry "resetstat" .configResetStatCommand 2 [.admin, .noscript, .loading, .stale],
  entry "rewrite" .configRewriteCommand 2 [.admin, .noscript, .loading, .stale],
  entry "set" .configSetCommand (-4) [.admin, .noscript, .loading, .stale]]

def latencySubcommands : List Entry := [
  entry "doctor" .latencyCommand 2 [.admin, .noscript, .loading, .stale],
  entry "graph" .latencyCommand 3 [.admin, .noscript, .loading, .stale],
  entry "help" .latencyCommand 2 [.loading, .stale],
  entry "histogram" .latencyCommand (-2) [.admin, .noscript, .loading, .stale],
  entry "history" .latencyCommand 3 [.admin, .noscript, .loading, .stale],
  entry "latest" .latencyCommand 2 [.admin, .noscript, .loading, .stale],
  entry "reset" .latencyCommand (-2) [.admin, .noscript, .loading, .stale]]

def memorySubcommands : List Entry := [
  entry "doctor" .memoryCommand 2 [],
  entry "help" .memoryCommand 2 [.loading, .stale],
  entry "malloc-stats" .memoryCommand 2 [],
  entry "purge" .memoryCommand 2 [],
  entry "stats" .memoryCommand 2 [],
  entry "usage" .memoryCommand (-3) [.readonly]]

def moduleSubcommands : List Entry := [
  entry "help" .moduleCommand 2 [.loading, .stale],
  entry "list" .moduleCommand 2 [.admin, .noscript],
  entry "load" .moduleCommand (-3) [.noAsyncLoading, .admin, .noscript, .protectedCmd],
  entry "loadex" .moduleCommand (-3) [.noAsyncLoading, .admin, .noscript, .protectedCmd],
  entry "unload" .moduleCommand 3 [.noAsyncLoading, .admin, .noscript, .protectedCmd]]

def slowlogSubcommands : List Entry := [
  entry "get" .slowlogCommand (-2) [.admin, .loading, .stale],
  entry "help" .slowlogCommand 2 [.loading, .stale],
  entry "len" .slowlogCommand 2 [.admin, .loading, .stale],
  entry "reset" .slowlogCommand 2 [.admin, .loading, .stale]]

def xgroupSubcommands : List Entry := [
  entry "create" .xgroupCommand (-5) [.write, .denyoom],
  entry "createconsumer" .xgroupCommand 5 [.write, .denyoom],
  entry "delconsumer" .xgroupCommand 5 [.write],
  entry "destroy" .xgroupCommand 4 [.write],
  entry "help" .xgroupCommand 2 [.loading, .stale],
  entry "setid" .xgroupCommand (-5) [.write]]

def xinfoSubcommands : List Entry := [
  entry "consumers" .xinfoCommand 4 [.readonly],
  entry "groups" .xinfoCommand 3 [.readonly],
  entry "help" .xinfoCommand 2 [.loading, .stale],
  entry "stream" .xinfoCommand (-3) [.readonly]]

/-! ## The table -/

/-- `redisCommandTable`. -/
def redisCommandTable : List Command := [
  command "bitcount" .bitcountCommand (-2) [.readonly],
  command "bitfield" .bitfieldCommand (-2) [.write, .denyoom],
  command "bitfield_ro" .bitfieldroCommand (-2) [.readonly, .fast],
  command "bitop" .bitopCommand (-4) [.write, .denyoom],
  command "bitpos" .bitposCommand (-3) [.readonly],
  command "getbit" .getbitCommand 3 [.readonly, .fast],
  command "setbit" .setbitCommand 4 [.write, .denyoom],
  command "asking" .askingCommand 1 [.fast],
  container "cluster" (-2) [] clusterSubcommands,
  command "readonly" .readonlyCommand 1 [.fast, .loading, .stale],
  command "readwrite" .readwriteCommand 1 [.fast, .loading, .stale],
  command "auth" .authCommand (-2)
    [.noscript, .loading, .stale, .fast, .noAuth, .sentinel, .allowBusy],
  container "client" (-2) [.sentinel] clientSubcommands,
  command "echo" .echoCommand 2 [.loading, .stale, .fast],
  command "hello" .helloCommand (-1)
    [.noscript, .loading, .stale, .fast, .noAuth, .sentinel, .allowBusy],
  command "ping" .pingCommand (-1) [.fast, .sentinel],
  command "quit" .quitCommand (-1) [.allowBusy, .noscript, .loading, .stale, .fast, .noAuth],
  command "reset" .resetCommand 1 [.noscript, .loading, .stale, .fast, .noAuth, .allowBusy],
  command "select" .selectCommand 2 [.loading, .stale, .fast],
  command "copy" .copyCommand (-3) [.write, .denyoom],
  command "del" .delCommand (-2) [.write],
  command "dump" .dumpCommand 2 [.readonly],
  command "exists" .existsCommand (-2) [.readonly, .fast],
  command "expire" .expireCommand (-3) [.write, .fast],
  command "expireat" .expireatCommand (-3) [.write, .fast],
  command "expiretime" .expiretimeCommand 2 [.readonly, .fast],
  command "keys" .keysCommand 2 [.readonly],
  command "migrate" .migrateCommand (-6) [.write],
  command "move" .moveCommand 3 [.write, .fast],
  container "object" (-2) [] objectSubcommands,
  command "persist" .persistCommand 2 [.write, .fast],
  command "pexpire" .pexpireCommand (-3) [.write, .fast],
  command "pexpireat" .pexpireatCommand (-3) [.write, .fast],
  command "pexpiretime" .pexpiretimeCommand 2 [.readonly, .fast],
  command "pttl" .pttlCommand 2 [.readonly, .fast],
  command "randomkey" .randomkeyCommand 1 [.readonly, .touchesArbitraryKeys],
  command "rename" .renameCommand 3 [.write],
  command "renamenx" .renamenxCommand 3 [.write, .fast],
  command "restore" .restoreCommand (-4) [.write, .denyoom],
  command "scan" .scanCommand (-2) [.readonly, .touchesArbitraryKeys],
  command "sort" .sortCommand (-2) [.write, .denyoom],
  command "sort_ro" .sortroCommand (-2) [.readonly],
  command "touch" .touchCommand (-2) [.readonly, .fast],
  command "ttl" .ttlCommand 2 [.readonly, .fast],
  command "type" .typeCommand 2 [.readonly, .fast],
  command "unlink" .unlinkCommand (-2) [.write, .fast],
  command "wait" .waitCommand 3 [.blocking],
  command "waitaof" .waitaofCommand 4 [.blocking],
  command "geoadd" .geoaddCommand (-5) [.write, .denyoom],
  command "geodist" .geodistCommand (-4) [.readonly],
  command "geohash" .geohashCommand (-2) [.readonly],
  command "geopos" .geoposCommand (-2) [.readonly],
  command "georadius" .georadiusCommand (-6) [.write, .denyoom],
  command "georadiusbymember" .georadiusbymemberCommand (-5) [.write, .denyoom],
  command "georadiusbymember_ro" .georadiusbymemberroCommand (-5) [.readonly],
  command "georadius_ro" .georadiusroCommand (-6) [.readonly],
  command "geosearch" .geosearchCommand (-7) [.readonly],
  command "geosearchstore" .geosearchstoreCommand (-8) [.write, .denyoom],
  command "hdel" .hdelCommand (-3) [.write, .fast],
  command "hexists" .hexistsCommand 3 [.readonly, .fast],
  command "hexpire" .hexpireCommand (-6) [.write, .denyoom, .fast],
  command "hexpireat" .hexpireatCommand (-6) [.write, .denyoom, .fast],
  command "hexpiretime" .hexpiretimeCommand (-5) [.readonly, .fast],
  command "hget" .hgetCommand 3 [.readonly, .fast],
  command "hgetall" .hgetallCommand 2 [.readonly],
  command "hincrby" .hincrbyCommand 4 [.write, .denyoom, .fast],
  command "hincrbyfloat" .hincrbyfloatCommand 4 [.write, .denyoom, .fast],
  command "hkeys" .hkeysCommand 2 [.readonly],
  command "hlen" .hlenCommand 2 [.readonly, .fast],
  command "hmget" .hmgetCommand (-3) [.readonly, .fast],
  command "hmset" .hsetCommand (-4) [.write, .denyoom, .fast],
  command "hpersist" .hpersistCommand (-5) [.write, .fast],
  command "hpexpire" .hpexpireCommand (-6) [.write, .denyoom, .fast],
  command "hpexpireat" .hpexpireatCommand (-6) [.write, .denyoom, .fast],
  command "hpexpiretime" .hpexpiretimeCommand (-5) [.readonly, .fast],
  command "hpttl" .hpttlCommand (-5) [.readonly, .fast],
  command "hrandfield" .hrandfieldCommand (-2) [.readonly],
  command "hscan" .hscanCommand (-3) [.readonly],
  command "hset" .hsetCommand (-4) [.write, .denyoom, .fast],
  command "hsetnx" .hsetnxCommand 4 [.write, .denyoom, .fast],
  command "hstrlen" .hstrlenCommand 3 [.readonly, .fast],
  command "httl" .httlCommand (-5) [.readonly, .fast],
  command "hvals" .hvalsCommand 2 [.readonly],
  command "pfadd" .pfaddCommand (-2) [.write, .denyoom, .fast],
  command "pfcount" .pfcountCommand (-2) [.readonly, .mayReplicate],
  command "pfdebug" .pfdebugCommand 3 [.write, .denyoom, .admin],
  command "pfmerge" .pfmergeCommand (-2) [.write, .denyoom],
  command "pfselftest" .pfselftestCommand 1 [.admin],
  command "blmove" .blmoveCommand 6 [.write, .denyoom, .blocking],
  command "blmpop" .blmpopCommand (-5) [.write, .blocking],
  command "blpop" .blpopCommand (-3) [.write, .blocking],
  command "brpop" .brpopCommand (-3) [.write, .blocking],
  command "brpoplpush" .brpoplpushCommand 4 [.write, .denyoom, .blocking],
  command "lindex" .lindexCommand 3 [.readonly],
  command "linsert" .linsertCommand 5 [.write, .denyoom],
  command "llen" .llenCommand 2 [.readonly, .fast],
  command "lmove" .lmoveCommand 5 [.write, .denyoom],
  command "lmpop" .lmpopCommand (-4) [.write],
  command "lpop" .lpopCommand (-2) [.write, .fast],
  command "lpos" .lposCommand (-3) [.readonly],
  command "lpush" .lpushCommand (-3) [.write, .denyoom, .fast],
  command "lpushx" .lpushxCommand (-3) [.write, .denyoom, .fast],
  command "lrange" .lrangeCommand 4 [.readonly],
  command "lrem" .lremCommand 4 [.write],
  command "lset" .lsetCommand 4 [.write, .denyoom],
  command "ltrim" .ltrimCommand 4 [.write],
  command "rpop" .rpopCommand (-2) [.write, .fast],
  command "rpoplpush" .rpoplpushCommand 3 [.write, .denyoom],
  command "rpush" .rpushCommand (-3) [.write, .denyoom, .fast],
  command "rpushx" .rpushxCommand (-3) [.write, .denyoom, .fast],
  command "psubscribe" .psubscribeCommand (-2)
    [.pubsub, .noscript, .loading, .stale, .sentinel, .denyoom],
  command "publish" .publishCommand 3 [.pubsub, .loading, .stale, .fast, .mayReplicate, .sentinel],
  container "pubsub" (-2) [] pubsubSubcommands,
  command "punsubscribe" .punsubscribeCommand (-1)
    [.pubsub, .noscript, .loading, .stale, .sentinel],
  command "spublish" .spublishCommand 3 [.pubsub, .loading, .stale, .fast, .mayReplicate],
  command "ssubscribe" .ssubscribeCommand (-2) [.pubsub, .noscript, .loading, .stale, .denyoom],
  command "subscribe" .subscribeCommand (-2)
    [.pubsub, .noscript, .loading, .stale, .sentinel, .denyoom],
  command "sunsubscribe" .sunsubscribeCommand (-1) [.pubsub, .noscript, .loading, .stale],
  command "unsubscribe" .unsubscribeCommand (-1) [.pubsub, .noscript, .loading, .stale, .sentinel],
  container "function" (-2) [] functionSubcommands,
  container "script" (-2) [] scriptSubcommands,
  container "sentinel" (-2) [.admin, .sentinel, .onlySentinel] sentinelSubcommands,
  container "acl" (-2) [.sentinel] aclSubcommands,
  command "bgrewriteaof" .bgrewriteaofCommand 1 [.noAsyncLoading, .admin, .noscript],
  command "bgsave" .bgsaveCommand (-1) [.noAsyncLoading, .admin, .noscript],
  { command "command" .commandCommand (-1) [.loading, .stale, .sentinel] with
    subcommands := commandSubcommands },
  container "config" (-2) [] configSubcommands,
  command "dbsize" .dbsizeCommand 1 [.readonly, .fast],
  command "debug" .debugCommand (-2) [.admin, .noscript, .loading, .stale, .protectedCmd],
  command "failover" .failoverCommand (-1) [.admin, .noscript, .stale],
  command "flushall" .flushallCommand (-1) [.write],
  command "flushdb" .flushdbCommand (-1) [.write],
  command "info" .infoCommand (-1) [.loading, .stale, .sentinel],
  command "lastsave" .lastsaveCommand 1 [.loading, .stale, .fast],
  container "latency" (-2) [] latencySubcommands,
  command "lolwut" .lolwutCommand (-1) [.readonly, .fast],
  container "memory" (-2) [] memorySubcommands,
  container "module" (-2) [] moduleSubcommands,
  command "monitor" .monitorCommand 1 [.admin, .noscript, .loading, .stale],
  command "psync" .syncCommand (-3) [.noAsyncLoading, .admin, .noMulti, .noscript],
  command "replconf" .replconfCommand (-1) [.admin, .noscript, .loading, .stale, .allowBusy],
  command "replicaof" .replicaofCommand 3 [.noAsyncLoading, .admin, .noscript, .stale],
  command "restore-asking" .restoreCommand (-4) [.write, .denyoom, .asking],
  command "role" .roleCommand 1 [.noscript, .loading, .stale, .fast, .sentinel],
  command "save" .saveCommand 1 [.noAsyncLoading, .admin, .noscript, .noMulti],
  command "shutdown" .shutdownCommand (-1)
    [.admin, .noscript, .loading, .stale, .noMulti, .sentinel, .allowBusy],
  command "slaveof" .replicaofCommand 3 [.noAsyncLoading, .admin, .noscript, .stale],
  container "slowlog" (-2) [] slowlogSubcommands,
  command "swapdb" .swapdbCommand 3 [.write, .fast],
  command "sync" .syncCommand 1 [.noAsyncLoading, .admin, .noMulti, .noscript],
  command "time" .timeCommand 1 [.loading, .stale, .fast],
  command "sadd" .saddCommand (-3) [.write, .denyoom, .fast],
  command "scard" .scardCommand 2 [.readonly, .fast],
  command "sdiff" .sdiffCommand (-2) [.readonly],
  command "sdiffstore" .sdiffstoreCommand (-3) [.write, .denyoom],
  command "sinter" .sinterCommand (-2) [.readonly],
  command "sintercard" .sinterCardCommand (-3) [.readonly],
  command "sinterstore" .sinterstoreCommand (-3) [.write, .denyoom],
  command "sismember" .sismemberCommand 3 [.readonly, .fast],
  command "smembers" .sinterCommand 2 [.readonly],
  command "smismember" .smismemberCommand (-3) [.readonly, .fast],
  command "smove" .smoveCommand 4 [.write, .fast],
  command "spop" .spopCommand (-2) [.write, .fast],
  command "srandmember" .srandmemberCommand (-2) [.readonly],
  command "srem" .sremCommand (-3) [.write, .fast],
  command "sscan" .sscanCommand (-3) [.readonly],
  command "sunion" .sunionCommand (-2) [.readonly],
  command "sunionstore" .sunionstoreCommand (-3) [.write, .denyoom],
  command "bzmpop" .bzmpopCommand (-5) [.write, .blocking],
  command "bzpopmax" .bzpopmaxCommand (-3) [.write, .fast, .blocking],
  command "bzpopmin" .bzpopminCommand (-3) [.write, .fast, .blocking],
  command "zadd" .zaddCommand (-4) [.write, .denyoom, .fast],
  command "zcard" .zcardCommand 2 [.readonly, .fast],
  command "zcount" .zcountCommand 4 [.readonly, .fast],
  command "zdiff" .zdiffCommand (-3) [.readonly],
  command "zdiffstore" .zdiffstoreCommand (-4) [.write, .denyoom],
  command "zincrby" .zincrbyCommand 4 [.write, .denyoom, .fast],
  command "zinter" .zinterCommand (-3) [.readonly],
  command "zintercard" .zinterCardCommand (-3) [.readonly],
  command "zinterstore" .zinterstoreCommand (-4) [.write, .denyoom],
  command "zlexcount" .zlexcountCommand 4 [.readonly, .fast],
  command "zmpop" .zmpopCommand (-4) [.write],
  command "zmscore" .zmscoreCommand (-3) [.readonly, .fast],
  command "zpopmax" .zpopmaxCommand (-2) [.write, .fast],
  command "zpopmin" .zpopminCommand (-2) [.write, .fast],
  command "zrandmember" .zrandmemberCommand (-2) [.readonly],
  command "zrange" .zrangeCommand (-4) [.readonly],
  command "zrangebylex" .zrangebylexCommand (-4) [.readonly],
  command "zrangebyscore" .zrangebyscoreCommand (-4) [.readonly],
  command "zrangestore" .zrangestoreCommand (-5) [.write, .denyoom],
  command "zrank" .zrankCommand (-3) [.readonly, .fast],
  command "zrem" .zremCommand (-3) [.write, .fast],
  command "zremrangebylex" .zremrangebylexCommand 4 [.write],
  command "zremrangebyrank" .zremrangebyrankCommand 4 [.write],
  command "zremrangebyscore" .zremrangebyscoreCommand 4 [.write],
  command "zrevrange" .zrevrangeCommand (-4) [.readonly],
  command "zrevrangebylex" .zrevrangebylexCommand (-4) [.readonly],
  command "zrevrangebyscore" .zrevrangebyscoreCommand (-4) [.readonly],
  command "zrevrank" .zrevrankCommand (-3) [.readonly, .fast],
  command "zscan" .zscanCommand (-3) [.readonly],
  command "zscore" .zscoreCommand 3 [.readonly, .fast],
  command "zunion" .zunionCommand (-3) [.readonly],
  command "zunionstore" .zunionstoreCommand (-4) [.write, .denyoom],
  command "xack" .xackCommand (-4) [.write, .fast],
  command "xadd" .xaddCommand (-5) [.write, .denyoom, .fast],
  command "xautoclaim" .xautoclaimCommand (-6) [.write, .fast],
  command "xclaim" .xclaimCommand (-6) [.write, .fast],
  command "xdel" .xdelCommand (-3) [.write, .fast],
  container "xgroup" (-2) [] xgroupSubcommands,
  container "xinfo" (-2) [] xinfoSubcommands,
  command "xlen" .xlenCommand 2 [.readonly, .fast],
  command "xpending" .xpendingCommand (-3) [.readonly],
  command "xrange" .xrangeCommand (-4) [.readonly],
  command "xread" .xreadCommand (-4) [.blocking, .readonly],
  command "xreadgroup" .xreadCommand (-7) [.blocking, .write],
  command "xrevrange" .xrevrangeCommand (-4) [.readonly],
  command "xsetid" .xsetidCommand (-3) [.write, .denyoom, .fast],
  command "xtrim" .xtrimCommand (-4) [.write],
  command "append" .appendCommand 3 [.write, .denyoom, .fast],
  command "decr" .decrCommand 2 [.write, .denyoom, .fast],
  command "decrby" .decrbyCommand 3 [.write, .denyoom, .fast],
  command "get" .getCommand 2 [.readonly, .fast],
  command "getdel" .getdelCommand 2 [.write, .fast],
  command "getex" .getexCommand (-2) [.write, .fast],
  command "getrange" .getrangeCommand 4 [.readonly],
  command "getset" .getsetCommand 3 [.write, .denyoom, .fast],
  command "incr" .incrCommand 2 [.write, .denyoom, .fast],
  command "incrby" .incrbyCommand 3 [.write, .denyoom, .fast],
  command "incrbyfloat" .incrbyfloatCommand 3 [.write, .denyoom, .fast],
  command "lcs" .lcsCommand (-3) [.readonly],
  command "mget" .mgetCommand (-2) [.readonly, .fast],
  command "mset" .msetCommand (-3) [.write, .denyoom],
  command "msetnx" .msetnxCommand (-3) [.write, .denyoom],
  command "psetex" .psetexCommand 4 [.write, .denyoom],
  command "set" .setCommand (-3) [.write, .denyoom],
  command "setex" .setexCommand 4 [.write, .denyoom],
  command "setnx" .setnxCommand 3 [.write, .denyoom, .fast],
  command "setrange" .setrangeCommand 4 [.write, .denyoom],
  command "strlen" .strlenCommand 2 [.readonly, .fast],
  command "substr" .getrangeCommand 4 [.readonly],
  command "discard" .discardCommand 1 [.noscript, .loading, .stale, .fast, .allowBusy],
  command "exec" .execCommand 1 [.noscript, .loading, .stale, .skipSlowlog],
  command "multi" .multiCommand 1 [.noscript, .loading, .stale, .fast, .allowBusy],
  command "unwatch" .unwatchCommand 1 [.noscript, .loading, .stale, .fast, .allowBusy],
  command "watch" .watchCommand (-2) [.noscript, .loading, .stale, .fast, .allowBusy]]

end WasiPorts.Redis.Commands
