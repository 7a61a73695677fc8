import MissionIndex.Documentation.Entry

/-!
# The known properties

The properties of root files that come documented, with the pages that describe them.
-/

namespace MissionIndex.Documentation

def wikiPage (page : String) : String := "https://community.bistudio.com/wiki/" ++ page

def propertyAt (page name type description : String) : Entry :=
  { name, type, description, link := wikiPage page }

def property (name type description : String) : Entry :=
  propertyAt ("Description.ext#" ++ name) name type description

/-- The documented properties. -/
def bundledEntries : List Entry :=
  [ property "author" "String"
      "Mission author's name, shown on the loading screen and in the mission selection.",
    property "onLoadName" "String"
      "Mission name displayed while the mission is loading.",
    property "onLoadMission" "String"
      "Text displayed below the mission name on the loading screen.",
    property "onLoadIntro" "String"
      "Text displayed while the intro is loading.",
    property "loadScreen" "String"
      "Path to the picture shown on the loading screen.",
    property "overviewText" "String"
      "Text shown on the mission overview screen.",
    property "overviewPicture" "String"
      "Picture shown on the mission overview screen.",
    property "briefing" "Number"
      "Set to 0 to skip the briefing screen when there is no briefing.",
    property "debriefing" "Number"
      "Set to 0 to skip the debriefing screen at the end of the mission.",
    property "respawn" "Number"
      "Respawn type: 0 none, 1 bird, 2 instant, 3 base, 4 group, 5 side.",
    property "respawnDelay" "Number"
      "Delay in seconds before the player respawns.",
    property "respawnOnStart" "Number"
      "Respawn at mission start: -1 no respawn and no script, 0 script only, 1 respawn and script.",
    property "respawnTemplates" "Array of strings"
      "Respawn templates applied to all sides.",
    property "respawnButton" "Number"
      "Enables or disables the respawn button in the pause menu.",
    property "disabledAI" "Number"
      "Removes AI units from playable slots not taken by players in multiplayer.",
    property "enableDebugConsole" "Number"
      "Allows the debug console: 0 editor only, 1 host and logged admin, 2 everybody.",
    property "joinUnassigned" "Number"
      "Automatically assigns joining players to a free slot.",
    property "showGPS" "Number"
      "Enables or disables the GPS.",
    property "showMap" "Number"
      "Enables or disables the map.",
    property "corpseManagerMode" "Number"
      "Corpse cleanup mode: 0 none, 1 all units, 2 none-respawnable, 3 respawnable.",
    property "corpseLimit" "Number"
      "Number of corpses kept before the oldest are removed.",
    property "allowFunctionsLog" "Number"
      "Logs function registration to the RPT file.",
    property "allowFunctionsRecompile" "Number"
      "Allows functions to be recompiled in the mission.",
    propertyAt "Arma_3:_Functions_Library" "CfgFunctions" "Class"
      ("Registers mission functions. Each tag class holds categories, "
        ++ "each category holds functions."),
    propertyAt "Arma_3:_CfgRemoteExec" "CfgRemoteExec" "Class"
      "Whitelists functions and commands that can be executed remotely.",
    property "CfgDebriefing" "Class"
      "Defines mission endings and their debriefing texts.",
    property "CfgSounds" "Class"
      "Defines sounds usable with playSound and say.",
    property "CfgMusic" "Class"
      "Defines music tracks usable with playMusic.",
    propertyAt "Mission_Parameters" "Params" "Class"
      "Mission parameters selectable in the multiplayer lobby.",
    property "RscTitles" "Class"
      "Defines resources displayed with cutRsc and titleRsc." ]

/-- The documented properties by name. -/
def bundled : Table := .ofList bundledEntries

end MissionIndex.Documentation
